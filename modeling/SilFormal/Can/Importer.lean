import SilFormal.Can.AdapterSpec
import SilFormal.Can.Timing
import SilFormal.Fmi.Terminals

/-!
# The importer and the CAN model

The importer holds the instant it will raise a countdown Clock at, the bus
computes the same instant itself, and the two are synchronised through changes
that a reading consumes.  `Agrees` relates the two between the calls of a
group, and every call of `Instance` keeps it.
-/

namespace SilFormal.Can

open Fmi
open Bus (nextEvent)

variable {T α : Type}

/-- The terminals of the CAN model that a group drives, each with its index on
the bus. -/
structure Attachment (T : Type) where
  terminals : List T
  node : T → Terminal
  clockName : T → String
  nodup : (terminals.map node).Nodup

namespace Attachment

variable (a : Attachment T)

/-- The send side of a terminal of the CAN model. -/
def sendSide (x : T) : SendSide T where
  transceiver := x
  data := reference (a.node x) txData
  clock := reference (a.node x) txClock
  clockName := a.clockName x

/-- The CAN model as an instance of a group. -/
def member (name : String) : Instance T Adapter AdapterError where
  name := name
  busSimulation := true
  fmu := Adapter.fmu
  triggered := []
  countdown := a.terminals.map a.sendSide

end Attachment

/-- The terminal is active on the bus. -/
def Attachment.Active (a : Attachment T) (st : Instance.State T Adapter) (x : T) : Prop :=
  st.fmu.bus.isActive (a.node x) = true

instance (a : Attachment T) (st : Instance.State T Adapter) (x : T) : Decidable (a.Active st x) :=
  inferInstanceAs (Decidable (_ = true))

/-- The importer knows the next event of the bus at a terminal, and has read
that it knows it. -/
structure Knows (a : Attachment T) (st : Instance.State T Adapter) (x : T) : Prop where
  due_eq : (st.buffers x).dueNs = if a.Active st x then st.fmu.bus.nextEvent else none
  interval_eq : st.fmu.interval (a.node x) =
    if a.Active st x ∧ st.fmu.bus.nextEvent.isSome = true then .unchanged else .notYetKnown

/-- What a terminal reports lets the importer know the next event. -/
def Reports (a : Attachment T) (st : Instance.State T Adapter) (x : T) : Prop :=
  match st.fmu.interval (a.node x) with
  | .changed => a.Active st x ∧ st.fmu.bus.nextEvent.isSome = true
  | .notYetKnown => a.Active st x → st.fmu.bus.nextEvent = none
  | .unchanged => a.Active st x ∧ st.fmu.bus.nextEvent.isSome = true ∧
      (st.buffers x).dueNs = st.fmu.bus.nextEvent

section Congr

variable {a : Attachment T} {st st' : Instance.State T Adapter} {x : T}

theorem Attachment.active_congr (hbus : st'.fmu.bus = st.fmu.bus) :
    a.Active st' x ↔ a.Active st x := by
  rw [Attachment.Active, Attachment.Active, hbus]

theorem Knows.congr (h : Knows a st x) (hbus : st'.fmu.bus = st.fmu.bus)
    (hinterval : st'.fmu.interval (a.node x) = st.fmu.interval (a.node x))
    (hbuffer : st'.buffers x = st.buffers x) : Knows a st' x := by
  have hactive := Attachment.active_congr (a := a) (x := x) hbus
  constructor
  · simpa only [hbuffer, hactive, hbus] using h.due_eq
  · simpa only [hinterval, hactive, hbus] using h.interval_eq

theorem Reports.congr (h : Reports a st x) (hbus : st'.fmu.bus = st.fmu.bus)
    (hinterval : st'.fmu.interval (a.node x) = st.fmu.interval (a.node x))
    (hbuffer : st'.buffers x = st.buffers x) : Reports a st' x := by
  have hactive := Attachment.active_congr (a := a) (x := x) hbus
  simpa only [Reports, hinterval, hactive, hbus, hbuffer] using h

end Congr

/-- What holds between two calls of the group that stands on an instant. -/
structure Agrees (c : Configuration) (a : Attachment T) (now : Int)
    (st : Instance.State T Adapter) : Prop where
  loop : EventLoop c .waiting now st.fmu.bus
  time_eq : st.fmu.time = now
  mode_eq : st.fmu.mode = if st.inEvent = true then .event else .step
  notEvaluated : st.fmu.event.evaluated = false
  notRaised : ∀ n, st.fmu.event.tx n = false
  received : ∀ n, st.fmu.event.rx n = true → ∃ x ∈ a.terminals, a.node x = n ∧ a.Active st x
  knows : ∀ x ∈ a.terminals, Knows a st x
  driven : st.fmu.bus.nextEvent ≠ none → ∃ x ∈ a.terminals, a.Active st x

/-- All active terminals of the bus are driven by the group. -/
def Attachment.Full (a : Attachment T) (c : Configuration) : Prop :=
  ∀ n : Terminal, n.val < c.activeNodes → ∃ x ∈ a.terminals, a.node x = n

/-- A failure of the instance that is not about a countdown Clock raised
wrongly. -/
def HarmlessFailure (full : Prop) (f : Failure AdapterError) : Prop :=
  ∀ name e, f = .status name e → Adapter.Harmless full e

theorem harmless_status {full : Prop} {name : String} {e : AdapterError}
    (h : Adapter.Harmless full e) : HarmlessFailure full (.status name e) := by
  rintro _ _ ⟨⟩
  exact h

theorem call_of {full : Prop} {name : String} {x : Adapter.Act α}
    {Q : α → Instance.State T Adapter → Prop} {st : Instance.State T Adapter}
    (h : Wp x (fun r i' => Q r { st with fmu := i' }) (fun e _ => Adapter.Harmless full e) st.fmu) :
    Wp (Instance.call name x) Q (fun f _ => HarmlessFailure full f) st := by
  rw [Instance.call, Wp.zoom_iff]
  exact h.mono (fun _ _ hQ => hQ) fun _ _ he => harmless_status he

namespace Agrees

variable {c : Configuration} {a : Attachment T} {now : Int} {st : Instance.State T Adapter}

theorem mode_ne_error (h : Agrees c a now st) : st.fmu.mode ≠ .error := by
  rw [h.mode_eq]
  split
  · simp
  · simp

/-- The buffers due at the instant are those of the active terminals, if the
bus is due. -/
theorem due_iff (h : Agrees c a now st) {x : T} (hx : x ∈ a.terminals) :
    (st.buffers x).dueNs = some now ↔ a.Active st x ∧ st.fmu.bus.nextEvent = some now := by
  rw [(h.knows x hx).due_eq]
  by_cases hactive : a.Active st x
  · simp [hactive]
  · simp [hactive]

/-- What `Agrees` reads of a state. -/
theorem congr {st' : Instance.State T Adapter} (h : Agrees c a now st)
    (hmode : st'.fmu.mode = if st'.inEvent = true then .event else .step)
    (hbus : st'.fmu.bus = st.fmu.bus) (htime : st'.fmu.time = st.fmu.time)
    (hevent : st'.fmu.event = st.fmu.event) (hinterval : st'.fmu.interval = st.fmu.interval)
    (hbuffers : st'.buffers = st.buffers) : Agrees c a now st' := by
  have hactive : ∀ x, a.Active st' x ↔ a.Active st x := fun _ => Attachment.active_congr hbus
  exact {
    loop := hbus ▸ h.loop
    time_eq := htime ▸ h.time_eq
    mode_eq := hmode
    notEvaluated := hevent ▸ h.notEvaluated
    notRaised := hevent ▸ h.notRaised
    received := by simpa only [hevent, hactive] using h.received
    knows := fun x hx => (h.knows x hx).congr hbus (congrFun hinterval _) (congrFun hbuffers _)
    driven := by simpa only [hbus, hactive] using h.driven }

end Agrees

/-! ## Entering and leaving events -/

section Calls

variable {full : Prop} {c : Configuration} (a : Attachment T) (name : String) {now : Int}
  {st : Instance.State T Adapter}

theorem enterEvent_spec (h : Agrees c a now st) : Wp (a.member name).enterEvent
      (fun _ st' => Agrees c a now st' ∧ st'.inEvent = true ∧ st'.fmu.bus = st.fmu.bus ∧
        st'.buffers = st.buffers)
      (fun f _ => HarmlessFailure full f) st := by
  rw [Instance.enterEvent, Wp.bind_iff, Wp.get_iff]
  split
  · rename_i hevent
    exact ⟨h, hevent, rfl, rfl⟩
  · rw [Wp.bind_iff]
    refine call_of ((Adapter.enterEventMode_spec h.mode_ne_error).post ?_)
    rintro _ _ rfl
    exact ⟨h.congr rfl rfl rfl rfl rfl rfl, rfl, rfl, rfl⟩

theorem leaveEvent_spec (h : Agrees c a now st) : Wp (a.member name).leaveEvent
      (fun _ st' => Agrees c a now st' ∧ st'.fmu.bus = st.fmu.bus)
      (fun f _ => HarmlessFailure full f) st := by
  rw [Instance.leaveEvent, Wp.bind_iff, Wp.get_iff]
  split
  · rw [Wp.bind_iff]
    refine call_of ((Adapter.enterStepMode_spec h.mode_ne_error).post ?_)
    rintro _ _ rfl
    exact ⟨h.congr rfl rfl rfl rfl rfl rfl, rfl⟩
  · exact ⟨h, rfl⟩

theorem check_spec (x : Except (Failure AdapterError) α) (st : Instance.State T Adapter) :
    Wp (Instance.check x) (fun r st' => x = .ok r ∧ st' = st)
      (fun f st' => x = .error f ∧ st' = st) st := by
  cases x with
  | ok r => exact ⟨rfl, rfl⟩
  | error f => exact ⟨rfl, rfl⟩

/-- Asking whether an instant is gone changes nothing. -/
theorem requireNothingPassed_spec (names : T → String) (instant : Int) :
    Wp ((a.member name).requireNothingPassed names instant) (fun _ st' => st' = st)
      (fun f _ => HarmlessFailure full f) st := by
  rw [Instance.requireNothingPassed, Wp.bind_iff]
  refine Wp.bind (Q := fun _ st' => st' = st) ?_ ?_
  · refine Wp.for_each (I := fun _ st' => st' = st) ?_ rfl
    rintro _ side _ _ _ rfl
    refine (check_spec _ _).mono (fun _ _ hr => hr.2) ?_
    rintro f _ ⟨hf, _⟩
    rw [Instance.requireAhead] at hf
    split at hf
    · split at hf
      · cases hf
        rintro _ _ ⟨⟩
      · cases hf
    · cases hf
  · rintro _ _ rfl
    refine (check_spec _ _).mono (fun _ _ hr => hr.2) ?_
    rintro f _ ⟨hf, _⟩
    rw [Instance.requireDeclaredAhead] at hf
    split at hf
    · split at hf
      · cases hf
        rintro _ _ ⟨⟩
      · cases hf
    · cases hf

/-- A step takes the importer and the adapter to the same instant. -/
theorem step_spec (h : Agrees c a now st) (hnow : 0 ≤ now) {stop : Int} (hstop : now ≤ stop) :
    Wp ((a.member name).step now (stop - now))
      (fun _ st' => Agrees c a stop st' ∧ ∀ due ∈ st.fmu.bus.nextEvent, stop ≤ due)
      (fun f _ => HarmlessFailure full f) st := by
  rw [Instance.step, Wp.bind_iff]
  refine call_of ((Adapter.doStep_spec h.mode_ne_error hnow (by omega)).post ?_)
  rintro answer _ ⟨rfl, hdue⟩
  have hsum : now + (stop - now) = stop := by omega
  rw [hsum] at hdue
  refine Wp.bind ((check_spec _ _).mono (fun _ _ hr => hr) ?_) ?_
  · rintro f _ ⟨hf, _⟩
    rw [Instance.completed] at hf
    split at hf
    · cases hf
      rintro _ _ ⟨⟩
    · split at hf
      · cases hf
        rintro _ _ ⟨⟩
      · cases hf
  · rintro eventNeeded _ ⟨_, rfl⟩
    refine ⟨?_, hdue⟩
    exact {
      loop := h.loop.step hstop hdue
      time_eq := hsum
      mode_eq := h.mode_eq
      notEvaluated := h.notEvaluated
      notRaised := h.notRaised
      received := h.received
      knows := fun x hx => (h.knows x hx).congr rfl rfl rfl
      driven := h.driven }

/-- A payload is handed to a terminal the group drives. -/
theorem deliver_spec {I : Type} {x : T} {transceiver : Transceiver I T} (h : Agrees c a now st)
    (hx : x ∈ a.terminals) (hclock : transceiver.receiveClock = reference (a.node x) rxClock)
    (hdata : transceiver.receiveData = reference (a.node x) rxData) (payload : Bytes) :
    Wp ((a.member name).deliver transceiver payload)
      (fun _ st' => Agrees c a now st' ∧ st'.fmu.bus = st.fmu.bus)
      (fun f _ => HarmlessFailure full f) st := by
  rw [Instance.deliver]
  split
  · rintro _ _ ⟨⟩
  · refine Wp.bind (enterEvent_spec a name h) ?_
    rintro _ st₁ ⟨h₁, _, hbus, _⟩
    rw [hclock, hdata, Wp.bind_iff]
    refine call_of ((Adapter.setClock_rx_spec h₁.mode_ne_error (a.node x)).post ?_)
    rintro _ _ ⟨hactive, rfl⟩
    refine call_of ((Adapter.setBinary_spec ?_ (a.node x) payload).post ?_)
    · exact h₁.mode_ne_error
    · rintro _ _ rfl
      refine ⟨?_, hbus⟩
      exact {
        loop := h₁.loop
        time_eq := h₁.time_eq
        mode_eq := h₁.mode_eq
        notEvaluated := h₁.notEvaluated
        notRaised := h₁.notRaised
        received := by
          intro n hn
          by_cases hnx : n = a.node x
          · exact ⟨x, hx, hnx.symm, hactive⟩
          · have hrx : st₁.fmu.event.rx n = true := by
              simpa [Adapter.withInput, Adapter.withRx, hnx] using hn
            exact h₁.received n hrx
        knows := fun y hy => (h₁.knows y hy).congr rfl rfl rfl
        driven := h₁.driven }

end Calls

end SilFormal.Can
