import SilFormal.Fmi.Loading
import SilFormal.Fmi.Terminals

/-!
# Driving an instance of a group

An instance is in Event Mode or in Step Mode, and it knows in which.  Whatever
it is driven to do, it makes only the calls its mode allows; and if a call is
not answered OK, it is left as closing needs it, unless a signal takes the
answer.
-/

namespace SilFormal.Fmi.Instance

variable {I T V N α : Type} {starts : List (StartValue V)}

/-- The instance is in Event Mode, and knows it. -/
def AtEvent (starts : List (StartValue V)) (st : State T (CoSimulation N)) : Prop :=
  st.inEvent = true ∧ Driven true starts .event st.fmu

/-- The instance is in Step Mode, and knows it. -/
def AtStep (starts : List (StartValue V)) (st : State T (CoSimulation N)) : Prop :=
  st.inEvent = false ∧ Driven true starts .step st.fmu

/-- The instance is in one of the two modes, and knows in which. -/
def Ready (starts : List (StartValue V)) (st : State T (CoSimulation N)) : Prop :=
  AtEvent starts st ∨ AtStep starts st

/-- The instance may be driven no further. -/
def Ended (starts : List (StartValue V)) (st : State T (CoSimulation N)) : Prop :=
  Left true starts st.fmu

variable {st : State T (CoSimulation N)}

theorem AtEvent.ready (h : AtEvent starts st) : Ready starts st :=
  .inl h

theorem AtStep.ready (h : AtStep starts st) : Ready starts st :=
  .inr h

theorem Ready.ended (h : Ready starts st) : Ended starts st := by
  rcases h with h | h
  · exact h.2.left
  · exact h.2.left

/-- An entry point in the mode the instance is in. -/
theorem keeps_call {x : EStateM Problem (CoSimulation N) α} {m m' : Stand} {inEvent : Bool}
    (name : String)
    (h : Keeps (Left true starts) (Driven true starts m) (Driven true starts m') x) :
    Keeps (Ended starts)
      (fun st => st.inEvent = inEvent ∧ Driven true starts m st.fmu)
      (fun st => st.inEvent = inEvent ∧ Driven true starts m' st.fmu)
      (call name x : Drive T (CoSimulation N) Problem α) := by
  rintro st ⟨hin, hst⟩
  rw [call, Wp.zoom_iff]
  exact (h st.fmu hst).post fun _ _ hs' => ⟨hin, hs'⟩

theorem keeps_check {P : State T (CoSimulation N) → Prop} (hP : ∀ st, P st → Ended starts st)
    (x : Except (Failure Problem) α) :
    Keeps (Ended starts) P P (check x : Drive T (CoSimulation N) Problem α) := by
  cases x with
  | ok a => exact .pure a
  | error e => exact .throw hP e

section Programs

variable {n : Native N V} {m : Instance T (CoSimulation N) Problem} (hfmu : m.fmu = n.fmu)

include hfmu

theorem keeps_getBinary (data : Reference) : Keeps (Ended starts) (AtEvent starts) (AtEvent starts)
      (call "fmi3GetBinary" (m.fmu.getBinary data) : Drive T (CoSimulation N) Problem Bytes) := by
  rw [hfmu]
  exact keeps_call _ (.map (n.keeps_call rfl _))

theorem keeps_readClocked (side : SendSide T) :
    Keeps (Ended starts) (AtEvent starts) (AtEvent starts) (m.readClocked side) := by
  have hclock : Keeps (Ended starts) (AtEvent starts) (AtEvent starts)
      (call "fmi3GetClock" (m.fmu.getClock side.clock) :
        Drive T (CoSimulation N) Problem Bool) := by
    rw [hfmu]
    exact keeps_call _ (n.keeps_call rfl _)
  exact hclock.bind fun _ => .ite ((keeps_getBinary hfmu side.data).bind fun _ => .pure _) (.pure _)

theorem keeps_activationsOf (sides : List (SendSide T)) :
    Keeps (Ended starts) (AtEvent starts) (AtEvent starts) (m.activationsOf sides) := by
  induction sides with
  | nil => exact .pure _
  | cons side rest ih => exact (keeps_readClocked hfmu side).bind fun _ => ih.bind fun _ => .pure _

theorem keeps_iterate (eventTime : Int) (left : Nat) :
    Keeps (Ended starts) (AtEvent starts) (AtEvent starts) (m.iterate eventTime left) := by
  have hended : ∀ st : State T (CoSimulation N), AtEvent starts st → Ended starts st :=
    fun _ hst => hst.ready.ended
  have hupdate : Keeps (Ended starts) (AtEvent starts) (AtEvent starts)
      (call "fmi3UpdateDiscreteStates" m.fmu.updateDiscreteStates :
        Drive T (CoSimulation N) Problem DiscreteStates) := by
    rw [hfmu]
    exact keeps_call _ (n.keeps_call rfl _)
  induction left with
  | zero => exact .throw hended _
  | succ left ih =>
    refine (keeps_activationsOf hfmu m.triggered).bind fun _ => hupdate.bind fun _ => ?_
    refine .ite (.throw hended _) (.ite (ih.bind fun _ => .pure _) ?_)
    exact (keeps_activationsOf hfmu m.triggered).bind fun _ => .pure _

theorem keeps_enterEvent : Keeps (Ended starts) (Ready starts) (AtEvent starts) m.enterEvent := by
  rintro st (hst | hst)
  · simp only [enterEvent, Wp.bind_iff, Wp.get_iff, hst.1]
    exact hst
  · simp only [enterEvent, Wp.bind_iff, Wp.get_iff, hst.1, Bool.false_eq_true, if_false, hfmu]
    refine (keeps_call _ (n.keeps_call rfl _) st hst).post fun _ st' hst' => ?_
    exact ⟨rfl, hst'.2⟩

theorem keeps_leaveEvent : Keeps (Ended starts) (Ready starts) (AtStep starts) m.leaveEvent := by
  rintro st (hst | hst)
  · simp only [leaveEvent, Wp.bind_iff, Wp.get_iff, hst.1, if_true, hfmu]
    refine (keeps_call _ (n.keeps_call rfl _) st hst).post fun _ st' hst' => ?_
    exact ⟨rfl, hst'.2⟩
  · simp only [leaveEvent, Wp.bind_iff, Wp.get_iff, hst.1]
    exact hst

theorem keeps_step (t dt : Int) :
    Keeps (Ended starts) (AtStep starts) (AtStep starts) (m.step t dt) := by
  rw [step, hfmu]
  refine (keeps_call _ (n.keeps_call rfl _)).bind fun _ => ?_
  refine (keeps_check (fun _ hst => AtStep.ready hst |>.ended) _).bind fun _ => ?_
  exact .modify fun _ hst => hst

theorem keeps_raiseClocks (due : List (SendSide T)) :
    Keeps (Ended starts) (AtEvent starts) (AtEvent starts) (m.raiseClocks due) := by
  rw [raiseClocks, hfmu]
  exact .ite (.pure _) (keeps_call _ (n.keeps_call rfl _))

omit hfmu in
theorem keeps_requireNothingPassed (name : T → String) (instant : Int) :
    Keeps (Ended starts) (Ready starts) (Ready starts) (m.requireNothingPassed name instant) := by
  have hcheck : ∀ x : Except (Failure Problem) Unit, Keeps (Ended starts) (Ready starts)
      (Ready starts) (check x : Drive T (CoSimulation N) Problem Unit) :=
    keeps_check fun _ hst => hst.ended
  exact .get_bind fun st => (Keeps.forM fun _ _ => hcheck _).bind fun _ => hcheck _

theorem keeps_deliver (x : Transceiver I T) (payload : Bytes) :
    Keeps (Ended starts) (Ready starts) (AtEvent starts) (m.deliver x payload) := by
  refine .ite (.throw (fun _ hst => hst.ended) _) ((keeps_enterEvent hfmu).bind fun _ => ?_)
  rw [hfmu]
  exact (keeps_call _ (n.keeps_call rfl _)).bind fun _ => keeps_call _ (n.keeps_call rfl _)

variable [DecidableEq T]

theorem keeps_takeEach (due : List (SendSide T)) :
    Keeps (Ended starts) (AtEvent starts) (AtEvent starts) (m.takeEach due) := by
  induction due with
  | nil => exact .pure _
  | cons side rest ih =>
    have htake : Keeps (Ended starts) (AtEvent starts) (AtEvent starts) (m.take side) :=
      .modify_bind (fun _ hst => hst) (keeps_getBinary hfmu side.data)
    exact htake.bind fun _ => ih.bind fun _ => .pure _

theorem keeps_refresh (now : Int) (side : SendSide T) :
    Keeps (Ended starts) (AtEvent starts) (AtEvent starts) (m.refresh now side) := by
  rw [refresh, hfmu]
  refine (keeps_call _ (n.keeps_call rfl _)).bind fun _ => .get_bind fun _ => ?_
  refine (keeps_check (fun _ hst => AtEvent.ready hst |>.ended) _).bind fun _ => ?_
  exact .modify fun _ hst => hst

theorem keeps_handle (eventTime : Int) :
    Keeps (Ended starts) (Ready starts) (AtEvent starts) (m.handle eventTime) := by
  refine (keeps_enterEvent hfmu).bind fun _ => .modify_bind (fun _ hst => hst) ?_
  refine .get_bind fun st => (keeps_raiseClocks hfmu _).bind fun _ => ?_
  refine (keeps_takeEach hfmu _).bind fun _ => (keeps_iterate hfmu eventTime _).bind fun _ => ?_
  refine .modify_bind (fun _ hst => hst) ?_
  exact (Keeps.forM fun side _ => keeps_refresh hfmu eventTime side).bind fun _ => .pure _

end Programs

end SilFormal.Fmi.Instance
