import SilFormal.Fmi.CoSimulation
import SilFormal.Library.History

/-!
# Which calls FMI 3.0 allows on an instance

Where an instance stands follows from the calls that were answered OK.  A
history of calls is legal if every call is allowed where it is made and the
instance is freed in the end.
-/

namespace SilFormal.Fmi

open List

/-- Where an instance stands. -/
inductive Stand
  | instantiated
  | configuration
  | initialization
  | event
  | step
  | terminated
deriving DecidableEq, Repr

/-- Where a call that is answered OK takes an instance. -/
def Stand.after (eventMode : Bool) (m : Stand) : Call → Stand
  | .instantiate => .instantiated
  | .enterConfigurationMode => .configuration
  | .exitConfigurationMode => .instantiated
  | .enterInitializationMode => .initialization
  | .exitInitializationMode => if eventMode = true then .event else .step
  | .enterEventMode => .event
  | .enterStepMode => .step
  | .terminate => .terminated
  | _ => m

variable {m : Stand}

/-- Where an instance stands after the calls made on it. -/
def standing (eventMode : Bool) (calls : List (Call × Status)) : Stand :=
  calls.foldl (fun m c => if c.2 = .ok then m.after eventMode c.1 else m) .instantiated

/-- Calls on Clocks, on countdown intervals and of the discrete-state update. -/
def Call.ofEvents : Call → Bool
  | .getClock | .setClock | .getIntervalFraction | .updateDiscreteStates => true
  | _ => false

/-- Calls that step an instance or end its steps. -/
def Call.ofSteps : Call → Bool
  | .doStep | .enterEventMode => true
  | _ => false

/-- The start values written with success. -/
def startsWritten (calls : List (Call × Status)) : List (Bool × String) :=
  calls.filterMap fun c =>
    match c with
    | (.startValue structural name, .ok) => some (structural, name)
    | _ => none

/-- The declared start values, the structural ones first. -/
def startsDeclared {V : Type} (starts : List (StartValue V)) : List (Bool × String) :=
  ((starts.filter (·.structural)) ++ starts.filter fun v => !v.structural).map
    fun v => (v.structural, v.variableName)

/-- Every call is allowed where it is made. -/
structure Allowed {V : Type} (eventMode : Bool) (starts : List (StartValue V))
    (before : List (Call × Status)) (c : Call × Status) : Prop where
  /-- Start values come before initialization, structural ones in Configuration
  Mode. -/
  startValue : ∀ structural name, c.1 = .startValue structural name →
    .enterInitializationMode ∉ before.map (·.1) ∧
      (structural = true → standing eventMode before = .configuration)
  /-- All of them are written when initialization is entered. -/
  started : c.1 = .enterInitializationMode → startsWritten before = startsDeclared starts
  events : c.1.ofEvents = true → standing eventMode before = .event
  steps : c.1.ofSteps = true → standing eventMode before = .step
  leave : c.1 = .enterStepMode → standing eventMode before = .event
  terminate : c.1 = .terminate → (.exitInitializationMode, .ok) ∈ before
  /-- After Error an instance is only freed. -/
  error : (∃ d ∈ before, d.2 = .error) → c.1 = .freeInstance
  fatal : ∀ d ∈ before, d.2 ≠ .fatal

/-- The calls on an instance that was closed. -/
structure Legal {V : Type} (eventMode : Bool) (starts : List (StartValue V))
    (calls : List (Call × Status)) : Prop where
  allowed : History.Always (Allowed eventMode starts) calls
  /-- An instance that was created and did not answer Fatal is freed once. -/
  freed : (.instantiate, .ok) ∈ calls → (∀ c ∈ calls, c.2 ≠ .fatal) →
    (calls.map (·.1)).count .freeInstance = 1

variable {N V α : Type} {eventMode : Bool} {starts : List (StartValue V)}
  {before calls : List (Call × Status)} {c : Call} {status status' : Status} {s : CoSimulation N}

theorem standing_snoc : standing eventMode (calls ++ [(c, status)]) =
      if status = .ok then (standing eventMode calls).after eventMode c
      else standing eventMode calls := by
  simp [standing]

/-- Whether a call is allowed does not depend on its answer. -/
theorem Allowed.congr (h : Allowed eventMode starts before (c, status)) :
    Allowed eventMode starts before (c, status') :=
  ⟨h.startValue, h.started, h.events, h.steps, h.leave, h.terminate, h.error, h.fatal⟩

theorem legal_nil : Legal eventMode starts [] :=
  ⟨History.always_nil, fun h => by simp at h⟩

/-! ## Driving an instance -/

/-- An instance that was initialized, and all of whose calls were answered
without Error and Fatal. -/
structure Driven (eventMode : Bool) (starts : List (StartValue V)) (m : Stand)
    (s : CoSimulation N) : Prop where
  allowed : History.Always (Allowed eventMode starts) s.calls
  created : s.created = true
  live : s.live = true
  sound : s.failed = false
  read : s.unread = none
  clean : ∀ d ∈ s.calls, d.2 ≠ .error ∧ d.2 ≠ .fatal
  initialized : (.exitInitializationMode, .ok) ∈ s.calls
  unfreed : (s.calls.map (·.1)).count .freeInstance = 0
  stands : standing eventMode s.calls = m

/-- An instance whose closing leaves a legal history. -/
structure Closable (eventMode : Bool) (starts : List (StartValue V)) (s : CoSimulation N) :
    Prop where
  allowed : History.Always (Allowed eventMode starts) s.calls
  created : s.created = true
  unfreed : (s.calls.map (·.1)).count .freeInstance = 0
  live : s.live = true → ∀ d ∈ s.calls, d.2 ≠ .fatal
  dead : s.live = false → ∃ d ∈ s.calls, d.2 = .fatal
  sound : s.live = true → s.failed = false →
    (.exitInitializationMode, .ok) ∈ s.calls ∧ ∀ d ∈ s.calls, d.2 ≠ .error

/-- How a Run may leave an instance: it can be closed, unless an Error or a
Fatal was lost. -/
structure Left (eventMode : Bool) (starts : List (StartValue V)) (s : CoSimulation N) : Prop where
  closable : s.Heard → Closable eventMode starts s
  lost : ¬ s.Heard → s.created = true ∧ s.live = true ∧ s.failed = false ∧
    ∃ d ∈ s.calls, d.2 = .error ∨ d.2 = .fatal

theorem Driven.left (h : Driven eventMode starts m s) :
    Left eventMode starts s where
  closable := fun _ => {
    allowed := h.allowed
    created := h.created
    unfreed := h.unfreed
    live := fun _ d hd => (h.clean d hd).2
    dead := fun hl => by simp [h.live] at hl
    sound := fun _ _ => ⟨h.initialized, fun d hd => (h.clean d hd).1⟩ }
  lost := fun hlost => by simp [CoSimulation.Heard, h.read] at hlost

/-- An instance that can be closed after one more call. -/
theorem closable_of_snoc
    (hallowed : History.Always (Allowed eventMode starts) (before ++ [(c, status)]))
    (hclean : ∀ d ∈ before, d.2 ≠ .error ∧ d.2 ≠ .fatal)
    (hunfreed : ((before ++ [(c, status)]).map (·.1)).count .freeInstance = 0)
    (hcalls : s.calls = before ++ [(c, status)]) (hcreated : s.created = true)
    (hlive : s.live = true ↔ status ≠ .fatal) (hsound : s.live = true → s.failed = false →
      status ≠ .error ∧ (.exitInitializationMode, .ok) ∈ s.calls) :
    Closable eventMode starts s := by
  refine ⟨hcalls ▸ hallowed, hcreated, hcalls ▸ hunfreed, fun hl d hd => ?_, fun hl => ?_,
    fun hl hf => ⟨(hsound hl hf).2, fun d hd => ?_⟩⟩
  · rcases mem_append.1 (hcalls ▸ hd) with hd | hd
    · exact (hclean d hd).2
    · rw [mem_singleton.1 hd]
      exact hlive.1 hl
  · refine ⟨(c, status), by simp [hcalls], ?_⟩
    by_contra hne
    simp [hlive.2 hne] at hl
  · rcases mem_append.1 (hcalls ▸ hd) with hd | hd
    · exact (hclean d hd).1
    · rw [mem_singleton.1 hd]
      exact (hsound hl hf).1

/-- The calls an instance is driven with. -/
def Stand.allows : Stand → Call → Bool
  | .event, .getClock | .event, .setClock | .event, .getIntervalFraction
  | .event, .updateDiscreteStates | .event, .enterStepMode => true
  | .step, .doStep | .step, .enterEventMode => true
  | _, .setValues | _, .getValues | _, .setBinary | _, .getBinary => true
  | _, _ => false

theorem Stand.eq_event (hm : m.allows c = true) (hc : c.ofEvents = true) : m = .event := by
  cases c <;> cases hc <;> cases m <;> first | rfl | cases hm

theorem Stand.eq_step (hm : m.allows c = true) (hc : c.ofSteps = true) : m = .step := by
  cases c <;> cases hc <;> cases m <;> first | rfl | cases hm

theorem Driven.allowed_of_allows (h : Driven eventMode starts m s) (hm : m.allows c = true) :
    Allowed eventMode starts s.calls (c, status) where
  startValue := by rintro structural name rfl; cases m <;> cases hm
  started := by rintro rfl; cases m <;> cases hm
  events := fun hc => h.stands.trans (Stand.eq_event hm hc)
  steps := fun hc => h.stands.trans (Stand.eq_step hm hc)
  leave := by rintro rfl; cases m <;> first | exact h.stands | cases hm
  terminate := by rintro rfl; cases m <;> cases hm
  error := by
    rintro ⟨d, hd, herror⟩
    exact absurd herror (h.clean d hd).1
  fatal := fun d hd => (h.clean d hd).2

theorem Stand.ne_freeInstance (hm : m.allows c = true) : c ≠ .freeInstance := by
  rintro rfl
  cases m <;> cases hm

/-- A call the importer drives an instance with. -/
theorem Native.keeps_call (n : Native N V) (hm : m.allows c = true) (x : N → (Status × α) × N) :
    Keeps (Left eventMode starts) (Driven eventMode starts m)
      (Driven eventMode starts (m.after eventMode c)) (n.call c x) := by
  intro s h
  have hallowed : ∀ status,
      History.Always (Allowed eventMode starts) (s.calls ++ [(c, status)]) := fun status =>
    History.always_snoc_iff.2 ⟨h.allowed, h.allowed_of_allows hm⟩
  have hunfreed : ∀ status : Status,
      ((s.calls ++ [(c, status)]).map (·.1)).count .freeInstance = 0 := fun status => by
    simp [h.unfreed, Stand.ne_freeInstance hm]
  simp only [Wp, Native.call, Native.attempt, Native.invoke]
  by_cases hsignal : n.signalled s.native = true
  · simp only [hsignal]
    exact h.left
  simp only [hsignal]
  generalize x s.native = r
  by_cases hcut : n.interrupted r.2 = true
  · simp only [hcut]
    refine ⟨fun hheard => ?_, fun hlost => ⟨h.created, h.live, h.sound, _,
      mem_append_right _ mem_cons_self, ?_⟩⟩
    · obtain ⟨herror, hfatal⟩ : r.1.1 ≠ .error ∧ r.1.1 ≠ .fatal := by
        simpa [CoSimulation.Heard, CoSimulation.cut] using hheard
      exact closable_of_snoc (hallowed _) h.clean (hunfreed _) rfl h.created
        ⟨fun _ => hfatal, fun _ => h.live⟩
        fun _ _ => ⟨herror, mem_append_left _ h.initialized⟩
    · simpa [CoSimulation.Heard, CoSimulation.cut, or_iff_not_imp_left] using hlost
  simp only [hcut]
  by_cases hok : r.1.1 = .ok
  · simp only [hok]
    exact {
      allowed := hallowed _
      created := h.created
      live := by simp [CoSimulation.answered, h.live]
      sound := by simp [CoSimulation.answered, h.sound]
      read := h.read
      clean := by
        intro d hd
        rcases mem_append.1 hd with hd | hd
        · exact h.clean d hd
        · simp [mem_singleton.1 hd]
      initialized := mem_append_left _ h.initialized
      unfreed := hunfreed _
      stands := by simp [CoSimulation.answered, standing_snoc, h.stands] }
  · simp only [hok]
    refine ⟨fun _ => ?_, fun hlost => ?_⟩
    · refine closable_of_snoc (hallowed _) h.clean (hunfreed _) rfl h.created ?_ fun _ hf =>
        ⟨?_, mem_append_left _ h.initialized⟩
      · simp [CoSimulation.answered, h.live]
      · simpa [CoSimulation.answered, h.sound] using hf
    · simp [CoSimulation.Heard, CoSimulation.answered, h.read] at hlost

/-! ## Closing an instance -/

/-- An instance after `close`, whether it failed or not. -/
def Native.closed (n : Native N V) (s : CoSimulation N) : CoSimulation N :=
  match n.close s with
  | .ok _ s' => s'
  | .error _ s' => s'

/-- `fmi3Terminate` was made and answered. -/
def Native.terminated (n : Native N V) (s : CoSimulation N) : CoSimulation N :=
  s.answered .terminate (n.terminate s.native).1 (n.terminate s.native).2

theorem Native.closed_eq (n : Native N V) (s : CoSimulation N) :
    n.closed s = if s.live = true then if s.failed = true then n.free s else n.free (n.terminated s)
      else s := by
  simp only [closed, close, invoke, statusOnly]
  by_cases hl : s.live = true
  · by_cases hf : s.failed = true
    · simp [hl, hf]
    · by_cases hok : (n.terminate s.native).1 = .ok
      · simp [hl, hf, hok, terminated]
      · simp [hl, hf, hok, terminated]
  · simp [hl]

theorem Native.free_calls (n : Native N V) (s : CoSimulation N) :
    ∃ after, (n.free s).calls = s.calls ++ after := by
  by_cases hl : s.live = true
  · exact ⟨[(.freeInstance, .ok)], by simp [free, hl]⟩
  · exact ⟨[], by simp [free, hl]⟩

theorem allowed_free (h : ∀ d ∈ before, d.2 ≠ .fatal) :
    Allowed eventMode starts before (.freeInstance, status) where
  startValue := nofun
  started := nofun
  events := nofun
  steps := nofun
  leave := nofun
  terminate := nofun
  error := fun _ => rfl
  fatal := h

theorem allowed_terminate (hinit : (.exitInitializationMode, .ok) ∈ before)
    (h : ∀ d ∈ before, d.2 ≠ .error ∧ d.2 ≠ .fatal) :
    Allowed eventMode starts before (.terminate, status) where
  startValue := nofun
  started := nofun
  events := nofun
  steps := nofun
  leave := nofun
  terminate := fun _ => hinit
  error := by
    rintro ⟨d, hd, herror⟩
    exact absurd herror (h d hd).1
  fatal := fun d hd => (h d hd).2

/-- An instance that did not answer Fatal is freed. -/
theorem legal_free (n : Native N V) (hallowed : History.Always (Allowed eventMode starts) s.calls)
    (hunfreed : (s.calls.map (·.1)).count .freeInstance = 0)
    (hlive : s.live = true → ∀ d ∈ s.calls, d.2 ≠ .fatal)
    (hdead : s.live = false → ∃ d ∈ s.calls, d.2 = .fatal) :
    Legal eventMode starts (n.free s).calls := by
  by_cases hl : s.live = true
  · simp only [Native.free, hl]
    refine ⟨History.always_snoc_iff.2 ⟨hallowed, allowed_free (hlive hl)⟩, fun _ _ => ?_⟩
    simp [hunfreed]
  · simp only [Native.free, hl]
    refine ⟨hallowed, fun _ hclean => ?_⟩
    obtain ⟨d, hd, hfatal⟩ := hdead (by simpa using hl)
    exact absurd hfatal (hclean d hd)

theorem Closable.legal (n : Native N V) (h : Closable eventMode starts s) :
    Legal eventMode starts (n.closed s).calls := by
  rw [Native.closed_eq]
  by_cases hl : s.live = true
  · by_cases hf : s.failed = true
    · simp only [hl, hf]
      exact legal_free n h.allowed h.unfreed h.live h.dead
    · simp only [hl, hf]
      obtain ⟨hinit, herror⟩ := h.sound hl (by simpa using hf)
      have hclean : ∀ d ∈ s.calls, d.2 ≠ .error ∧ d.2 ≠ .fatal := fun d hd =>
        ⟨herror d hd, h.live hl d hd⟩
      refine legal_free n (History.always_snoc_iff.2 ⟨h.allowed, allowed_terminate hinit hclean⟩)
        ?_ (fun hl' d hd => ?_) (fun hl' => ?_)
      · simp [Native.terminated, CoSimulation.answered, h.unfreed]
      · rcases mem_append.1 hd with hd | hd
        · exact h.live hl d hd
        · simpa [Native.terminated, CoSimulation.answered, hl, mem_singleton.1 hd] using hl'
      · exact ⟨_, mem_append_right _ mem_cons_self,
          by simpa [Native.terminated, CoSimulation.answered, hl] using hl'⟩
  · simp only [hl]
    refine ⟨h.allowed, fun _ hclean => ?_⟩
    obtain ⟨d, hd, hfatal⟩ := h.dead (by simpa using hl)
    exact absurd hfatal (hclean d hd)

/-- Closing terminates an instance that is not known to have failed, whether or
not it may be. -/
theorem not_legal_of_live (n : Native N V) (hl : s.live = true) (hf : s.failed = false)
    (h : (.exitInitializationMode, .ok) ∉ s.calls ∨ ∃ d ∈ s.calls, d.2 = .error ∨ d.2 = .fatal) :
    ¬ Legal eventMode starts (n.closed s).calls := by
  intro hlegal
  obtain ⟨after, hafter⟩ := n.free_calls (n.terminated s)
  have hcalls : (n.closed s).calls =
      s.calls ++ (.terminate, (n.terminate s.native).1) :: after := by
    simpa [Native.closed_eq, hl, hf, Native.terminated, CoSimulation.answered] using hafter
  have hallowed := hlegal.allowed _ _ _ hcalls
  rcases h with hinit | ⟨d, hd, herror | hfatal⟩
  · exact hinit (hallowed.terminate rfl)
  · cases hallowed.error ⟨d, hd, herror⟩
  · exact hallowed.fatal d hd hfatal

/-- An instance after its participant was closed. -/
def Native.finished (n : Native N V) (s : CoSimulation N) : CoSimulation N :=
  if s.created = true then n.closed s else s

theorem Left.legal_iff (n : Native N V) (h : Left eventMode starts s) :
    Legal eventMode starts (n.finished s).calls ↔ s.Heard := by
  constructor
  · intro hlegal
    by_contra hlost
    obtain ⟨hcreated, hl, hf, hd⟩ := h.lost hlost
    rw [Native.finished, if_pos hcreated] at hlegal
    exact not_legal_of_live n hl hf (.inr hd) hlegal
  · intro hheard
    have hclosable := h.closable hheard
    rw [Native.finished, if_pos hclosable.created]
    exact hclosable.legal n

end SilFormal.Fmi
