import SilFormal.Can.Adapter
import SilFormal.Can.Drain

/-!
# What the entry points of the adapter do

One specification for each entry point the importer uses: what its return says
of the state, and that it never throws the two errors of a countdown Clock
that the importer raised wrongly, when the Clocks are raised as the importer
does.
-/

namespace SilFormal.Can

open Fallible Bus Binary64

namespace Adapter

/-! ## Seconds -/

/-- A double of seconds within two roundings of an instant names it, wherever
the adapter accepts it. -/
theorem nanoseconds_eq {s : ℚ} {n instant : Int}
    (hlow : (1 - unitRoundoff) ^ 2 * ((instant : ℚ) / nsPerS) ≤ s)
    (hhigh : s ≤ (1 + unitRoundoff) ^ 2 * ((instant : ℚ) / nsPerS)) (h : nanoseconds s = .ok n) :
    n = instant := by
  rw [nanoseconds, require_bind_eq_ok] at h
  obtain ⟨⟨hs, hrange⟩, hn⟩ := h
  cases hn
  obtain ⟨hbelow, habove⟩ := nearest_bounds (x := s * nsPerS) (by positivity)
  have hscale : (instant : ℚ) / nsPerS * nsPerS = instant := by
    norm_num [nsPerS]
  have hproduct_low : (1 - unitRoundoff) ^ 2 * (instant : ℚ) ≤ s * nsPerS := by
    calc (1 - unitRoundoff) ^ 2 * (instant : ℚ)
        = (1 - unitRoundoff) ^ 2 * ((instant : ℚ) / nsPerS) * nsPerS := by rw [mul_assoc, hscale]
      _ ≤ s * nsPerS := mul_le_mul_of_nonneg_right hlow (by positivity)
  have hproduct_high : s * nsPerS ≤ (1 + unitRoundoff) ^ 2 * (instant : ℚ) := by
    calc s * nsPerS
        ≤ (1 + unitRoundoff) ^ 2 * ((instant : ℚ) / nsPerS) * nsPerS :=
          mul_le_mul_of_nonneg_right hhigh (by positivity)
      _ = (1 + unitRoundoff) ^ 2 * (instant : ℚ) := by rw [mul_assoc, hscale]
  simp only [unitRoundoff] at hbelow habove hproduct_low hproduct_high
  -- An accepted product is at most `maxTime`, so the instant is as well.
  have hmax : (instant : ℚ) ≤ 2 ^ 50 := by
    by_contra hgt
    have hsucc : (2 : ℚ) ^ 50 + 1 ≤ instant := by
      have hint : (2 : Int) ^ 50 < instant := by exact_mod_cast not_le.mp hgt
      exact_mod_cast hint
    have htime : ((maxTime : Int) : ℚ) = 2 ^ 50 := by norm_num [maxTime]
    linarith
  refine llround_eq (abs_lt.mpr ?_)
  constructor
  · linarith
  · linarith

theorem nanoseconds_error {s : ℚ} {e : AdapterError} (h : nanoseconds s = .error e) :
    e = .timeOutsideRange := by
  rw [nanoseconds, require_bind_eq_error] at h
  rcases h with ⟨_, rfl⟩ | ⟨_, h⟩
  · rfl
  · cases h

theorem nanoseconds_seconds_add {t dt n : Int} (ht : 0 ≤ t) (hdt : 0 ≤ dt)
    (h : nanoseconds (nearest (Fmi.seconds t + Fmi.seconds dt)) = .ok n) : n = t + dt := by
  have hcast : ∀ {k : Int}, 0 ≤ k → (0 : ℚ) ≤ (k : ℚ) / nsPerS := by
    intro k hk
    positivity
  obtain ⟨htlow, hthigh⟩ := nearest_bounds (hcast ht)
  obtain ⟨hdlow, hdhigh⟩ := nearest_bounds (hcast hdt)
  have hunit : (0 : ℚ) ≤ 1 - unitRoundoff := by norm_num [unitRoundoff]
  have htsec : Fmi.seconds t = nearest ((t : ℚ) / nsPerS) := rfl
  have hdsec : Fmi.seconds dt = nearest ((dt : ℚ) / nsPerS) := rfl
  have hsplit : ((t + dt : Int) : ℚ) / nsPerS = (t : ℚ) / nsPerS + (dt : ℚ) / nsPerS := by
    push_cast
    rw [add_div]
  have hsum : 0 ≤ Fmi.seconds t + Fmi.seconds dt := by
    have := mul_nonneg hunit (hcast ht)
    have := mul_nonneg hunit (hcast hdt)
    linarith
  obtain ⟨hlow, hhigh⟩ := nearest_bounds hsum
  refine nanoseconds_eq (le_trans ?_ hlow) (le_trans hhigh ?_) h
  · rw [hsplit, sq, mul_assoc]
    refine mul_le_mul_of_nonneg_left ?_ hunit
    linarith
  · rw [hsplit, sq, mul_assoc]
    refine mul_le_mul_of_nonneg_left ?_ (by norm_num [unitRoundoff])
    linarith

/-! ## Calls -/

/-- An error that is not about a countdown Clock raised wrongly; a group that
does not drive all active terminals cannot raise them together. -/
def Harmless (full : Prop) (e : AdapterError) : Prop :=
  e ≠ .notActivated ∧ e ≠ .activatedAway ∧ (full → e ≠ .notTogether)

variable {full : Prop}

section Rules

variable {α : Type} {Q : α → Adapter → Prop} {F : AdapterError → Adapter → Prop} {i : Adapter}

@[simp]
theorem demand_iff {condition : Prop} [Decidable condition] {e : AdapterError}
    {Q : Unit → Adapter → Prop} :
    Wp (demand condition e) Q F i ↔ (condition → Q () i) ∧ (¬ condition → F e i) := by
  rw [demand, Wp.ite_iff]
  exact Iff.rfl

@[simp]
theorem attempt_iff {x : Except AdapterError α} :
    Wp (attempt x) Q F i ↔ (∀ a, x = .ok a → Q a i) ∧ ∀ e, x = .error e → F e i := by
  cases x with
  | ok a => simp [attempt]
  | error e => simp [attempt]

theorem invokeFmi_of {body : Act α} {P : AdapterError → Prop} (hmode : i.mode ≠ .error)
    (h : Wp body Q (fun e _ => P e) i) : Wp (invokeFmi body) Q (fun e _ => P e) i := by
  simp only [Wp, invokeFmi, if_neg hmode] at h ⊢
  cases hbody : body i with
  | ok a i' =>
    rw [hbody] at h
    exact h
  | error e i' =>
    rw [hbody] at h
    exact h

end Rules

section References

@[simp]
theorem terminalOfReference_reference (n : Terminal) (member : Nat) (hmember : member < 4) :
    terminalOfReference (reference n member) = some n := by
  have hdiv : reference n member / terminalStride = n.val := by
    show (4 * n.val + member : Nat) / 4 = n.val
    omega
  have hlt : reference n member / terminalStride < terminalCapacity := hdiv ▸ n.isLt
  rw [terminalOfReference, dif_pos hlt]
  exact congrArg some (Fin.ext hdiv)

@[simp]
theorem reference_mod (n : Terminal) (member : Nat) (hmember : member < 4) :
    reference n member % terminalStride = member := by
  show (4 * n.val + member : Nat) % 4 = member
  omega

@[simp]
theorem terminalWith_reference (n : Terminal) (member : Nat) (hmember : member < 4) :
    terminalWith (reference n member) member = .ok n := by
  rw [terminalWith, terminalOfReference_reference n member hmember]
  simp [reference_mod n member hmember]

end References

section Calls

variable {i : Adapter} (hmode : i.mode ≠ .error)

include hmode

theorem enterEventMode_spec : Wp enterEventMode (fun _ i' => i' = { i with mode := .event })
      (fun e _ => Harmless full e) i := by
  refine invokeFmi_of hmode ?_
  simp [Harmless]

theorem enterStepMode_spec : Wp enterStepMode (fun _ i' => i' = { i with mode := .step })
      (fun e _ => Harmless full e) i := by
  refine invokeFmi_of hmode ?_
  simp [Harmless]

/-- A step takes the adapter exactly to the instant the importer means, and
not past the next event of the bus. -/
theorem doStep_spec {t dt : Int} (ht : 0 ≤ t) (hdt : 0 ≤ dt) :
    Wp (doStep (Fmi.seconds t) (Fmi.seconds dt))
      (fun _ i' => i' = { i with time := t + dt, eventsAtInstant := 0 } ∧
        ∀ due ∈ i.bus.nextEvent, t + dt ≤ due) (fun e _ => Harmless full e) i := by
  refine invokeFmi_of hmode ?_
  rw [Wp.bind_iff, Wp.get_iff, Wp.bind_iff, demand_iff]
  refine ⟨fun _ => ?_, fun _ => by simp [Harmless]⟩
  rw [Wp.bind_iff, attempt_iff]
  refine ⟨fun stop hstop => ?_, fun e he => ?_⟩
  · obtain rfl := nanoseconds_seconds_add ht hdt hstop
    rw [Wp.bind_iff, attempt_iff]
    refine ⟨fun start _ => ?_, fun e he => ?_⟩
    · rw [Wp.bind_iff, demand_iff]
      refine ⟨fun _ => ?_, fun _ => by simp [Harmless]⟩
      rw [Wp.bind_iff, demand_iff]
      exact ⟨fun hdue => ⟨rfl, hdue⟩, fun _ => by simp [Harmless]⟩
    · simp [Harmless, nanoseconds_error he]
  · simp [Harmless, nanoseconds_error he]

theorem setBinary_spec (n : Terminal) (value : Bytes) : Wp (setBinary (reference n rxData) value)
      (fun _ i' => i' = i.withInput n value) (fun e _ => Harmless full e) i := by
  refine invokeFmi_of hmode ?_
  have hreference := terminalWith_reference n rxData (by decide)
  simp [requireInitializationOrEvent, hreference, Harmless]

/-- The Clock of an active terminal is raised before its payload. -/
theorem setClock_rx_spec (n : Terminal) : Wp (setClock [reference n rxClock])
      (fun _ i' => i.bus.isActive n = true ∧ i' = i.withRx (Function.update i.event.rx n true))
      (fun e _ => Harmless full e) i := by
  refine invokeFmi_of hmode ?_
  have hreference := terminalOfReference_reference n rxClock (by decide)
  have hmod := reference_mod n rxClock (by decide)
  simpa [raise, hreference, hmod, Harmless] using fun _ _ hactive _ => hactive

omit hmode in
theorem raise_tx_spec (n : Terminal) : Wp (raise (reference n txClock))
      (fun _ i' => i.bus.isActive n = true ∧ i' = i.withTx (Function.update i.event.tx n true))
      (fun e _ => Harmless full e) i := by
  have hreference := terminalOfReference_reference n txClock (by decide)
  have hmod := reference_mod n txClock (by decide)
  have hother : ¬ txClock = rxClock := by decide
  simpa [raise, hreference, hmod, hother, Harmless] using fun hactive _ => hactive

/-- Raising countdown Clocks together. -/
theorem setClock_tx_spec (ns : List Terminal) : Wp (setClock (ns.map fun n => reference n txClock))
      (fun _ i' => (∀ n ∈ ns, i.bus.isActive n = true) ∧
        i' = i.withTx fun n => i.event.tx n || decide (n ∈ ns))
      (fun e _ => Harmless full e) i := by
  refine invokeFmi_of hmode ?_
  rw [Wp.bind_iff, Wp.get_iff, Wp.bind_iff, demand_iff]
  refine ⟨fun _ => ?_, fun _ => by simp [Harmless]⟩
  rw [Wp.bind_iff, demand_iff]
  refine ⟨fun _ => ?_, fun _ => by simp [Harmless]⟩
  clear hmode
  induction ns generalizing i with
  | nil => simp [withTx]
  | cons n ns ih =>
    refine Wp.bind (raise_tx_spec n) ?_
    rintro _ _ ⟨hactive, rfl⟩
    refine (ih ?_ ?_).post ?_
    · assumption
    · assumption
    · rintro _ _ ⟨hactives, rfl⟩
      refine ⟨by simpa using ⟨hactive, hactives⟩, ?_⟩
      have htx : (fun m => Function.update i.event.tx n true m || decide (m ∈ ns)) =
          fun m => i.event.tx m || decide (m ∈ n :: ns) := by
        funext m
        by_cases hm : m = n
        · simp [hm]
        · simp [hm]
      exact congrArg i.withTx htx

end Calls

/-! ## Evaluating an event -/

section Evaluating

variable {i : Adapter} {c : Configuration} {now : Int} {x : Except String Bus}

/-- The Clocks are up at the due instants of the bus and at no other. -/
structure Raised (full : Prop) (c : Configuration) (now : Int) (i : Adapter) : Prop where
  loop : EventLoop c .waiting now i.bus
  time_eq : i.time = now
  due_of_tx : ∀ n, i.event.tx n = true → i.bus.nextEvent = some now
  tx_of_due : i.bus.nextEvent = some now → ∃ n, i.event.tx n = true
  together : full → ∀ n, i.event.tx n = (i.bus.isActive n && i.event.tx 0)

/-- Where the Clocks are up together, a due one is up exactly if the first one
is. -/
theorem Raised.tx_zero_iff (h : Raised full c now i)
    (htogether : ∀ n, i.event.tx n = (i.bus.isActive n && i.event.tx 0)) :
    i.event.tx 0 = true ↔ i.bus.nextEvent = some now := by
  constructor
  · exact h.due_of_tx 0
  · intro hdue
    obtain ⟨n, hn⟩ := h.tx_of_due hdue
    rw [htogether n, Bool.and_eq_true] at hn
    exact hn.2

theorem onBus_error {e : AdapterError} (h : onBus x = .error e) : Harmless full e := by
  cases x with
  | ok b => cases h
  | error message =>
    cases h
    simp [Harmless]

theorem onBus_ok {b : Bus} (h : onBus x = .ok b) : x = .ok b := by
  cases x with
  | ok b' =>
    cases h
    rfl
  | error message => cases h

/-- Neither of the two errors is thrown. -/
theorem Raised.evaluatedBus_error (h : Raised full c now i) {e : AdapterError}
    (herror : i.evaluatedBus = .error e) : Harmless full e := by
  rw [evaluatedBus, require_bind_eq_error] at herror
  rcases herror with ⟨hnot, rfl⟩ | ⟨htogether, herror⟩
  · exact ⟨by simp, by simp, fun hfull => absurd (h.together hfull) hnot⟩
  · have hzero := h.tx_zero_iff htogether
    rw [require_bind_eq_error] at herror
    rcases herror with ⟨hnot, _⟩ | ⟨_, herror⟩
    · exact absurd (fun hdue => hzero.mpr (h.time_eq ▸ hdue)) hnot
    · rcases bind_eq_error.mp herror with hticked | ⟨next, _, herror⟩
      · rw [ticked] at hticked
        split at hticked
        · rename_i htx
          rcases require_bind_eq_error.mp hticked with ⟨haway, _⟩ | ⟨_, htick⟩
          · exact absurd (h.time_eq ▸ hzero.mp htx) haway
          · exact onBus_error htick
        · cases hticked
      · rcases require_bind_eq_error.mp herror with ⟨_, rfl⟩ | ⟨_, hreceive⟩
        · simp [Harmless]
        · exact onBus_error hreceive

/-- An event takes the bus through its event loop, and without inputs a bus at
rest stays at rest. -/
theorem Raised.evaluatedBus_ok (h : Raised full c now i) {next : Bus}
    (hok : i.evaluatedBus = .ok next) :
    EventLoop c .received now next ∧
      ((∀ n, i.event.rx n = false) → i.bus.nextEvent = none → next.nextEvent = none) := by
  rw [evaluatedBus, require_bind_eq_ok, require_bind_eq_ok, bind_eq_ok] at hok
  obtain ⟨htogether, _, ticked, hticked, hok⟩ := hok
  have hreceive := onBus_ok (require_bind_eq_ok.mp hok).2
  have hzero := h.tx_zero_iff htogether
  rw [h.time_eq] at hreceive
  rw [Adapter.ticked] at hticked
  split at hticked
  · rename_i htx
    obtain ⟨_, htick⟩ := require_bind_eq_ok.mp hticked
    have htick := onBus_ok htick
    rw [h.time_eq] at htick
    refine ⟨.receive (.tick h.loop (hzero.mp htx) htick) hreceive, fun _ hnone => ?_⟩
    rw [hzero.mp htx] at hnone
    cases hnone
  · rename_i htx
    cases hticked
    refine ⟨.receive (.skip h.loop fun hdue => htx (hzero.mpr hdue)) hreceive, fun hrx hnone => ?_⟩
    have hoffered : i.offered = fun _ => [] := by
      funext n
      simp [offered, hrx n]
    obtain ⟨hnow, hnext, _⟩ := receive_eq_ok_iff.mp hreceive
    rw [hoffered, receive_empty_of_not_starting hnow hnext] at hreceive
    · cases hreceive
      exact hnone
    · rintro ⟨hwire, hpending, _⟩
      have hlate : ∀ due ∈ i.bus.nextEvent, i.bus.idleFrom + 1 ≤ due := by simp [hnone]
      have hidle := (le_nextEvent_iff.mp hlate).2.1 hwire hpending
      omega

/-- What evaluating an event that is open does. -/
theorem evaluate_spec (h : Raised full c now i) (hopen : i.event.evaluated = false) : Wp evaluate
      (fun _ i' => ∃ next, i.evaluatedBus = .ok next ∧
        i' = { i.commit next with eventsAtInstant := i.eventsAtInstant + 1 })
      (fun e _ => Harmless full e) i := by
  rw [evaluate, Wp.bind_iff, Wp.get_iff, if_neg (by simp [hopen]), Wp.bind_iff, demand_iff]
  refine ⟨fun _ => ?_, fun _ => by simp [Harmless]⟩
  rw [Wp.bind_iff, Wp.modify_iff, Wp.bind_iff, demand_iff]
  refine ⟨fun _ => ?_, fun _ => by simp [Harmless]⟩
  rw [Wp.bind_iff, attempt_iff]
  exact ⟨fun next hnext => ⟨next, hnext, rfl⟩, fun e he => h.evaluatedBus_error he⟩

theorem evaluate_of_evaluated {Q : Unit → Adapter → Prop} {F : AdapterError → Adapter → Prop}
    (h : i.event.evaluated = true) (hQ : Q () i) : Wp evaluate Q F i := by
  rw [evaluate, Wp.bind_iff, Wp.get_iff, if_pos h]
  exact hQ

/-- Reading an output evaluates the event. -/
theorem getBinary_spec (hmode : i.mode = .event) (n : Terminal) {P : Adapter → Prop}
    (h : Wp evaluate (fun _ i' => P i') (fun e _ => Harmless full e) i) :
    Wp (getBinary (reference n txData)) (fun _ i' => P i') (fun e _ => Harmless full e) i := by
  refine invokeFmi_of (by simp [hmode]) ?_
  have hreference := terminalWith_reference n txData (by decide)
  simpa [requireInitializationOrEvent, hmode, hreference, Harmless] using fun _ => h

/-- Updating the states evaluates the event and forgets it. -/
theorem updateDiscreteStates_spec (hmode : i.mode = .event) {P : Adapter → Prop}
    (h : Wp evaluate (fun _ i' => P { i' with bus := i'.bus.clearOutputs, event := {} })
      (fun e _ => Harmless full e) i) :
    Wp updateDiscreteStates
      (fun states i' => states.terminate = false ∧ states.needUpdate = false ∧ P i')
      (fun e _ => Harmless full e) i := by
  refine invokeFmi_of (by simp [hmode]) ?_
  refine Wp.bind h ?_
  intro _ i' hP
  exact ⟨rfl, rfl, hP⟩

theorem getIntervalFraction_spec (hmode : i.mode = .event) (n : Terminal) :
    Wp (getIntervalFraction (reference n txClock))
      (fun answer i' =>
        answer = {
          counter := i.untilNextEvent.toNat, resolution := nsPerS
          qualifier := (i.interval n).toInt } ∧
        i' = { i with interval := Function.update i.interval n (i.interval n).read })
      (fun e _ => Harmless full e) i := by
  refine invokeFmi_of (by simp [hmode]) ?_
  have hreference := terminalWith_reference n txClock (by decide)
  simp [requireInitializationOrEvent, hmode, hreference]

end Evaluating

end Adapter

end SilFormal.Can
