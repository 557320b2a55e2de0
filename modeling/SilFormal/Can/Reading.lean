import SilFormal.Can.AdapterSpec
import SilFormal.Can.Conservation

/-!
# Reading the outputs of an event

The bus moves inside of whichever call comes first in an event: a reading of an
output, or the update of the discrete states.  How often and in which order the
outputs are read before the update makes no difference, also where the bus
refuses the event.
-/

namespace SilFormal.Can

open Fmi (Reference)

namespace Adapter

/-- One iteration of the loop of `fmi3GetBinary`. -/
def readOutput (vr : Reference) : Act Bytes := do
  let n ← attempt (terminalWith vr txData)
  let i ← get
  if i.mode = .event then do
    demand (i.event.tx n = true) .outputClockInactive
    evaluate
  else pure ()
  let i ← get
  pure (i.bus.nodes n).output

/-- `fmi3GetBinary` of several references. -/
def getBinaries (references : List Reference) : Act (List Bytes) := invokeFmi do
  let i ← get
  i.requireInitializationOrEvent
  references.mapM readOutput

/-- A call as its caller sees it: what it returns, or that its status is
`fmi3Error`. -/
def callFmi {α : Type} (x : Act α) (i : Adapter) : Option α × Adapter :=
  match x i with
  | .ok a i' => (some a, i')
  | .error _ i' => (none, i')

/-- Several readings of the outputs of terminals, whatever their status. -/
def readAll : List (List Terminal) → Adapter → List (Option (List Bytes)) × Adapter
  | [], i => ([], i)
  | read :: reads, i =>
    let first := callFmi (getBinaries (read.map fun n => reference n txData)) i
    let rest := readAll reads first.2
    (first.1 :: rest.1, rest.2)

/-! ## One evaluation -/

/-- An event that was evaluated is evaluated no more. -/
theorem evaluate_of_flag {i : Adapter} (h : i.event.evaluated = true) : evaluate i = .ok () i := by
  simp [evaluate, bind, EStateM.bind, get, getThe, MonadStateOf.get, EStateM.get, h, pure,
    EStateM.pure]

/-- What `evaluate` leaves of the event. -/
theorem evaluate_frame (i : Adapter) :
    Wp evaluate (fun _ j => j.event.evaluated = true ∧ j.mode = i.mode ∧
      j.event.tx = i.event.tx) (fun _ _ => True) i := by
  simp [evaluate, commit]

/-- A reading evaluates the event and returns what is then there. -/
theorem readOutput_eq {i : Adapter} {n : Terminal} (hmode : i.mode = .event)
    (htx : i.event.tx n = true) :
    readOutput (reference n txData) i =
      match evaluate i with
      | .ok _ j => .ok (j.bus.nodes n).output j
      | .error e j => .error e j := by
  have hterminal : attempt (terminalWith (reference n txData) txData) i = .ok n i := by
    rw [terminalWith_reference n txData (by decide)]
    rfl
  rw [readOutput, bind_of_ok hterminal, bind_of_ok (show (get : Act Adapter) i = .ok i i from rfl),
    if_pos hmode]
  have hdemand : demand (i.event.tx n = true) .outputClockInactive i = .ok () i := by
    rw [demand, if_pos htx]
    rfl
  rw [bind_of_ok hdemand]
  cases h : evaluate i with
  | ok u j => exact bind_of_ok h _
  | error e j => exact bind_of_error h _

section Event

variable {i j k : Adapter} {e : AdapterError} {α : Type} {r : List Terminal}
  {reads : List (List Terminal)}

/-- The body of a call in the Error state is not run. -/
theorem invokeFmi_of_error_state (body : Act α) (h : i.mode = .error) :
    invokeFmi body i = .error .errorState i := by
  rw [invokeFmi, if_pos h]

theorem invokeFmi_of_ok {body : Act α} {a : α} (hmode : i.mode = .event) (h : body i = .ok a j) :
    invokeFmi body i = .ok a j := by
  rw [invokeFmi, if_neg (by simp [hmode]), h]

theorem invokeFmi_of_throw {body : Act α} (hmode : i.mode = .event) (h : body i = .error e k) :
    invokeFmi body i = .error e { k with mode := .error } := by
  rw [invokeFmi, if_neg (by simp [hmode]), h]

/-- In Event Mode `fmi3GetBinary` is its loop. -/
theorem getBinaries_body (hmode : i.mode = .event) (references : List Reference) :
    ((get : Act Adapter) >>= fun i => i.requireInitializationOrEvent >>= fun _ =>
      references.mapM readOutput) i = references.mapM readOutput i := by
  have hdemand : i.requireInitializationOrEvent i = .ok () i := by
    rw [requireInitializationOrEvent, demand, if_pos (.inr hmode)]
    rfl
  rw [bind_of_ok (show (get : Act Adapter) i = .ok i i from rfl), bind_of_ok hdemand]

/-- An evaluated event is read without moving. -/
theorem mapM_readOutput (hmode : j.mode = .event) (hflag : j.event.evaluated = true)
    (htx : ∀ n ∈ r, j.event.tx n = true) :
    (r.map fun n => reference n txData).mapM readOutput j =
      .ok (r.map fun n => (j.bus.nodes n).output) j := by
  induction r with
  | nil => rfl
  | cons n r ih =>
    have hfirst : readOutput (reference n txData) j = .ok (j.bus.nodes n).output j := by
      rw [readOutput_eq hmode (htx n (by simp)), evaluate_of_flag hflag]
    have hrest := ih fun m hm => htx m (List.mem_cons_of_mem _ hm)
    rw [List.map_cons, List.mapM_cons, bind_of_ok hfirst, bind_of_ok hrest]
    rfl

/-- A reading of an event that can be evaluated. -/
theorem getBinaries_of_ok (hmode : i.mode = .event) (h : evaluate i = .ok () j)
    (htx : ∀ n ∈ r, i.event.tx n = true) :
    ∃ i', (i' = i ∨ i' = j) ∧ getBinaries (r.map fun n => reference n txData) i =
      .ok (r.map fun n => (j.bus.nodes n).output) i' := by
  obtain ⟨hflag, hsame, htx'⟩ := (evaluate_frame i).of_ok h
  cases r with
  | nil =>
    refine ⟨i, .inl rfl, invokeFmi_of_ok hmode ?_⟩
    exact getBinaries_body hmode []
  | cons n r =>
    have hfirst : readOutput (reference n txData) i = .ok (j.bus.nodes n).output j := by
      rw [readOutput_eq hmode (htx n (by simp)), h]
    have hrest := mapM_readOutput (hsame.trans hmode) hflag fun m hm => by
      rw [htx']
      exact htx m (List.mem_cons_of_mem _ hm)
    refine ⟨j, .inr rfl, invokeFmi_of_ok hmode ?_⟩
    rw [getBinaries_body hmode, List.map_cons, List.mapM_cons, bind_of_ok hfirst, bind_of_ok hrest]
    rfl

/-- A reading of an event that the bus refuses. -/
theorem getBinaries_of_error (hmode : i.mode = .event) (h : evaluate i = .error e k) {n : Terminal}
    (htx : i.event.tx n = true) :
    getBinaries ((n :: r).map fun n => reference n txData) i =
      .error e { k with mode := .error } := by
  refine invokeFmi_of_throw hmode ?_
  rw [getBinaries_body hmode, List.map_cons]
  refine bind_of_error ?_ _
  rw [readOutput_eq hmode htx, h]

/-! ## All readings of an event -/

/-- Readings of an event that can be evaluated: all of them return what is there
after the evaluation. -/
theorem readAll_of_ok (hmode : i.mode = .event) (h : evaluate i = .ok () j)
    (htx : ∀ read ∈ reads, ∀ n ∈ read, i.event.tx n = true) {s : Adapter} (hs : s = i ∨ s = j) :
    ∃ s', (s' = i ∨ s' = j) ∧ readAll reads s =
        (reads.map fun read => some (read.map fun n => (j.bus.nodes n).output), s') := by
  obtain ⟨hflag, hsame, htx'⟩ := (evaluate_frame i).of_ok h
  -- Both states evaluate to the second one and have the same Clocks up.
  have hstate : ∀ s, s = i ∨ s = j →
      s.mode = .event ∧ evaluate s = .ok () j ∧ s.event.tx = i.event.tx := by
    rintro s (rfl | rfl)
    · exact ⟨hmode, h, rfl⟩
    · exact ⟨hsame.trans hmode, evaluate_of_flag hflag, htx'⟩
  induction reads generalizing s with
  | nil => exact ⟨s, hs, rfl⟩
  | cons read reads ih =>
    obtain ⟨hevent, heval, hclocks⟩ := hstate s hs
    obtain ⟨s₁, hs₁, hfirst⟩ := getBinaries_of_ok hevent heval fun n hn => by
      rw [hclocks]
      exact htx read (by simp) n hn
    have hkept : s₁ = i ∨ s₁ = j := by
      rcases hs₁ with rfl | rfl
      · exact hs
      · exact .inr rfl
    obtain ⟨s', hs', hrest⟩ := ih (fun r hr => htx r (List.mem_cons_of_mem _ hr)) hkept
    refine ⟨s', hs', ?_⟩
    rw [readAll, callFmi, hfirst]
    rw [hrest]
    rfl

/-- Readings of an event that the bus refuses: from the first that reads a
terminal on they fail. -/
theorem readAll_of_error (hmode : i.mode = .event) (h : evaluate i = .error e k)
    (htx : ∀ read ∈ reads, ∀ n ∈ read, i.event.tx n = true) {s : Adapter}
    (hs : s = i ∨ s = { k with mode := .error }) :
    ((readAll reads s).2 = i ∨ (readAll reads s).2 = { k with mode := .error }) ∧
      List.Forall₂ (fun read result => result = none ∨ read = [] ∧ result = some []) reads
        (readAll reads s).1 := by
  induction reads generalizing s with
  | nil => exact ⟨hs, .nil⟩
  | cons read reads ih =>
    have hfirst : ∃ result s₁,
        callFmi (getBinaries (read.map fun n => reference n txData)) s = (result, s₁) ∧
          (s₁ = i ∨ s₁ = { k with mode := .error }) ∧
          (result = none ∨ read = [] ∧ result = some []) := by
      rcases hs with rfl | rfl
      · cases read with
        | nil =>
          have hnil : getBinaries [] s = .ok [] s :=
            invokeFmi_of_ok hmode (getBinaries_body hmode [])
          exact ⟨some [], s, by rw [List.map_nil, callFmi, hnil], .inl rfl, .inr ⟨rfl, rfl⟩⟩
        | cons n read =>
          have hthrows := getBinaries_of_error hmode h (r := read)
            (htx (n :: read) (by simp) n (by simp))
          exact ⟨none, _, by rw [callFmi, hthrows], .inr rfl, .inl rfl⟩
      · exact ⟨none, _, by rw [callFmi, getBinaries, invokeFmi_of_error_state _ rfl],
          .inr rfl, .inl rfl⟩
    obtain ⟨result, s₁, hcall, hs₁, hresult⟩ := hfirst
    obtain ⟨hstate, hresults⟩ := ih (fun r hr => htx r (List.mem_cons_of_mem _ hr)) hs₁
    rw [readAll, hcall]
    exact ⟨hstate, .cons hresult hresults⟩

theorem updateDiscreteStates_of_ok (hmode : i.mode = .event) (h : evaluate i = .ok () j) :
    updateDiscreteStates i = .ok { needUpdate := false, terminate := false, nextEventTime := none }
        { j with bus := j.bus.clearOutputs, event := {} } :=
  invokeFmi_of_ok hmode (bind_of_ok h _)

theorem updateDiscreteStates_of_error (hmode : i.mode = .event) (h : evaluate i = .error e k) :
    updateDiscreteStates i = .error e { k with mode := .error } :=
  invokeFmi_of_throw hmode (bind_of_error h _)

end Event

/-- Reading the outputs does not change an event.  With any readings of
terminals whose countdown Clocks are up, the update of the discrete states ends
in the same state and with the same status as without them.  Each terminal has
one output in the event, which every reading that succeeds returns, and all
readings succeed where the update does. -/
theorem reading_keeps_event (i : Adapter) (hmode : i.mode = .event) (reads : List (List Terminal))
    (htx : ∀ read ∈ reads, ∀ n ∈ read, i.event.tx n = true) :
    callFmi updateDiscreteStates (readAll reads i).2 = callFmi updateDiscreteStates i ∧
      ∃ output : Terminal → Bytes,
        List.Forall₂ (fun read result => result = none ∨ result = some (read.map output)) reads
            (readAll reads i).1 ∧
          ((callFmi updateDiscreteStates i).1 ≠ none → none ∉ (readAll reads i).1) := by
  cases h : evaluate i with
  | ok u j =>
    obtain ⟨hflag, hsame, _⟩ := (evaluate_frame i).of_ok h
    obtain ⟨s, hs, hreads⟩ := readAll_of_ok hmode h htx (.inl rfl)
    rw [hreads]
    refine ⟨?_, fun n => (j.bus.nodes n).output, ?_, ?_⟩
    · rcases hs with rfl | rfl
      · rfl
      · rw [callFmi, callFmi, updateDiscreteStates_of_ok hmode h,
          updateDiscreteStates_of_ok (hsame.trans hmode) (evaluate_of_flag hflag)]
    · rw [List.forall₂_map_right_iff]
      exact List.forall₂_same.mpr fun _ _ => .inr rfl
    · simp
  | error e k =>
    obtain ⟨hs, hresults⟩ := readAll_of_error hmode h htx (.inl rfl)
    have hupdate : callFmi updateDiscreteStates i = (none, { k with mode := .error }) := by
      rw [callFmi, updateDiscreteStates_of_error hmode h]
    refine ⟨?_, fun _ => [], hresults.imp ?_, ?_⟩
    · rcases hs with hs | hs
      · rw [hs]
      · rw [hs, hupdate, callFmi, updateDiscreteStates, invokeFmi_of_error_state _ rfl]
    · rintro read result (hnone | ⟨rfl, hsome⟩)
      · exact .inl hnone
      · exact .inr hsome
    · simp [hupdate]

/-- The pair of terminals at the end of its first frame, with both countdown
Clocks up. -/
def faultyEvent : Adapter :=
  let sent := Bus.faultyPair.start >>= fun b => b.run [.receive Bus.faultyInputs 0]
  { initialized (sent.toOption.getD {}) with
    time := 376000
    event := { tx := fun n => decide (n.val < 2) } }

/-- Three readings of the two outputs at the end of a frame. -/
theorem reading_keeps_event_frameEnd : (callFmi updateDiscreteStates faultyEvent).1.isSome = true ∧
      callFmi updateDiscreteStates (readAll [[0], [1, 0], [0]] faultyEvent).2 =
        callFmi updateDiscreteStates faultyEvent :=
  ⟨by decide +kernel, (reading_keeps_event faultyEvent rfl [[0], [1, 0], [0]] (by decide)).1⟩

end Adapter

end SilFormal.Can
