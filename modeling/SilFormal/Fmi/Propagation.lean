import SilFormal.Library.Fallible
import SilFormal.Fmi.Settling

/-!
# How far one instant propagates

`_Group._settle` looks at its work once before each event.  After the last
event that its bound allows it does not look again, so an instant that ends
with exactly that many events is refused like one that does not end.
-/

namespace SilFormal.Fmi.Group

variable {I T : Type} {σ ε : I → Type} {n : Nat} {g : Group I T σ ε} {instant : Int}
  {produced : List (T × Bytes)}

/-- A failure that is the loop's own comes from its bound. -/
def Foreign (e : GroupFailure I ε) : Prop :=
  ∀ instant, e ≠ .propagations instant

theorem observed_foreign {e : GroupFailure I ε} (h : g.observed instant produced = .error e) :
    Foreign e := by
  obtain ⟨p, _, hp⟩ := Fallible.exists_of_mapM_eq_error h
  rw [Observation.message] at hp
  split at hp
  · cases hp
    intro instant
    simp
  · cases hp

variable [DecidableEq I]

theorem onMember_foreign {α : Type} {j : I} (x : Instance.Drive T (σ j) (ε j) α) (s : State I T σ) :
    Wp (onMember (ε := ε) j x) (fun _ _ => True) (fun e _ => Foreign e) s := by
  rw [onMember, Wp.zoom_iff]
  exact Wp.intro (fun _ _ _ => trivial) fun _ _ _ instant => by simp

theorem handOver_foreign (x : T) (parts : List (Option Nat × Bytes)) (s : State I T σ) :
    Wp (g.handOver instant x parts) (fun _ _ => True) (fun e _ => Foreign e) s := by
  refine Wp.bind (onMember_foreign _ s) ?_
  intro _ s₁ _
  trivial

theorem quiesce_foreign (s : State I T σ) :
    Wp (g.quiesce instant) (fun _ _ => True) (fun e _ => Foreign e) s := by
  refine Wp.bind (Wp.for_each (I := fun _ _ => True) ?_ trivial) ?_
  · intro _ i _ s₁ _ _
    exact onMember_foreign _ s₁
  · intro _ s₁ _
    refine Wp.for_each (I := fun _ _ => True) ?_ trivial
    intro _ i _ s₂ _ _
    exact onMember_foreign _ s₂

variable [DecidableEq T]

/-- A number of events of one instant, from work to the work they leave: each
event takes the next item, or the batch of a bus, and what it produces is
appended. -/
inductive Propagates (g : Group I T σ ε) (instant : Int) :
    List (Pending I T) → State I T σ → Nat → List Message → List (Pending I T) → State I T σ → Prop
  | none (work : List (Pending I T)) (s : State I T σ) : Propagates g instant work s 0 [] work s
  | event {first : Pending I T} {others remaining work : List (Pending I T)}
      {s s₁ s₂ s' : State I T σ} {i : I} {produced : List (T × Bytes)}
      {published later : List Message} {n : Nat}
      (hdeliver : g.deliverSameInstant instant first others s = .ok (i, remaining) s₁)
      (hhandle : g.handle i instant s₁ = .ok produced s₂)
      (hobserved : g.observed instant produced = .ok published)
      (hrest : Propagates g instant (remaining ++ g.propagated produced) s₂ n later work s') :
      Propagates g instant (first :: others) s (n + 1) (published ++ later) work s'

section Outcomes

variable {first : Pending I T} {others remaining : List (Pending I T)}
    {s s₁ s₂ : State I T σ} {i : I} {published : List Message}

/-- One event of the loop, without a failure. -/
theorem propagate_of_event
    (hdeliver : g.deliverSameInstant instant first others s = .ok (i, remaining) s₁)
    (hhandle : g.handle i instant s₁ = .ok produced s₂)
    (hobserved : g.observed instant produced = .ok published) (left : Nat) :
    g.propagate instant (left + 1) (first :: others) s =
      (do let later ← g.propagate instant left (remaining ++ g.propagated produced)
          pure (published ++ later) : Drive I T σ ε (List Message)) s₂ := by
  refine (bind_of_ok hdeliver _).trans ((bind_of_ok hhandle _).trans ?_)
  rw [hobserved]
  rfl

theorem deliverSameInstant_foreign (s : State I T σ) :
    Wp (g.deliverSameInstant instant first others) (fun _ _ => True) (fun e _ => Foreign e) s := by
  have heach : ∀ {ι : Type} (items : List ι) (f : ι → T)
      (parts : ι → List (Option Nat × Bytes)) (s : State I T σ),
      Wp (forM items fun item => g.handOver instant (f item) (parts item)) (fun _ _ => True)
        (fun e _ => Foreign e) s := by
    intro ι items f parts s
    refine Wp.for_each (I := fun _ _ => True) ?_ trivial
    intro _ item _ s₁ _ _
    exact handOver_foreign _ _ s₁
  rw [deliverSameInstant]
  split
  · exact Wp.bind (heach _ _ _ s) fun _ _ _ => trivial
  · exact Wp.bind (heach _ _ _ s) fun _ _ _ => trivial

theorem handle_foreign (s : State I T σ) :
    Wp (g.handle i instant) (fun _ _ => True) (fun e _ => Foreign e) s := by
  rw [handle, Wp.bind_iff]
  refine Wp.bind (onMember_foreign _ s) ?_
  intro _ s₁ _
  trivial

end Outcomes

variable {pending work : List (Pending I T)} {s' : State I T σ}

/-- The loop that is bounded by more events than the instant has ends it. -/
theorem Propagates.settles {s s'' : State I T σ} {left : Nat} {published : List Message}
    (h : Propagates g instant pending s n published [] s') (hleft : n < left)
    (hquiesce : g.quiesce instant s' = .ok () s'') :
    g.propagate instant left pending s = .ok published s'' := by
  generalize hwork : ([] : List (Pending I T)) = work at h
  induction h generalizing left with
  | none work s =>
    subst hwork
    obtain ⟨left, rfl⟩ : ∃ rest, left = rest + 1 := ⟨left - 1, by omega⟩
    rw [propagate, bind_of_ok hquiesce]
    rfl
  | event hdeliver hhandle hobserved hrest ih =>
    obtain ⟨left, rfl⟩ : ∃ rest, left = rest + 1 := ⟨left - 1, by omega⟩
    rw [propagate_of_event hdeliver hhandle hobserved, bind_of_ok (ih (by omega) hquiesce hwork)]
    rfl

/-- A loop with no event left refuses the instant, whatever work there is. -/
theorem Propagates.refused {s : State I T σ} {published : List Message}
    (h : Propagates g instant pending s n published work s') :
    g.propagate instant n pending s = .error (.propagations instant) s' := by
  induction h with
  | none work s => rfl
  | event hdeliver hhandle hobserved hrest ih =>
    rw [propagate_of_event hdeliver hhandle hobserved, bind_of_error ih]

/-- The first events of a longer propagation. -/
theorem Propagates.take {s : State I T σ} {published : List Message}
    (h : Propagates g instant pending s n published work s') {k : Nat} (hk : k ≤ n) :
    ∃ earlier rest s₁, Propagates g instant pending s k earlier rest s₁ := by
  induction h generalizing k with
  | none work s =>
    obtain rfl : k = 0 := by omega
    exact ⟨_, _, _, .none work s⟩
  | event hdeliver hhandle hobserved hrest ih =>
    cases k with
    | zero => exact ⟨_, _, _, .none _ _⟩
    | succ k =>
      obtain ⟨earlier, rest, s₁, hfirst⟩ := ih (Nat.le_of_succ_le_succ hk)
      exact ⟨_, _, _, .event hdeliver hhandle hobserved hfirst⟩

/-- A failure at the bound comes after as many events, by induction on the
events that are left. -/
theorem propagate_refused (left : Nat) (pending : List (Pending I T)) (s : State I T σ) :
    Wp (g.propagate instant left pending) (fun _ _ => True)
      (fun e s' => e = .propagations instant →
        ∃ published work, Propagates g instant pending s left published work s') s := by
  induction left generalizing pending s with
  | zero => exact fun _ => ⟨_, _, .none pending s⟩
  | succ left ih =>
    cases pending with
    | nil =>
      exact Wp.bind ((quiesce_foreign s).mono (fun _ _ _ => trivial)
        fun e _ hforeign heq => absurd heq (hforeign instant)) fun _ _ _ => trivial
    | cons first others =>
      refine Wp.bind
        (Wp.intro (fun _ _ hdeliver => hdeliver) fun e s₁ he heq =>
          absurd heq ((deliverSameInstant_foreign s).of_error he instant)) ?_
      rintro ⟨i, remaining⟩ s₁ hdeliver
      refine Wp.bind
        (Wp.intro (fun _ _ hhandle => hhandle) fun e s₂ he heq =>
          absurd heq ((handle_foreign s₁).of_error he instant)) ?_
      intro produced s₂ hhandle
      cases hobserved : g.observed instant produced with
      | error e => exact fun heq => absurd heq (observed_foreign hobserved instant)
      | ok published =>
        refine Wp.bind (Q := fun r s₃ => r = published ∧ s₃ = s₂) ⟨rfl, rfl⟩ ?_
        rintro _ _ ⟨rfl, rfl⟩
        refine Wp.bind
          ((ih (remaining ++ g.propagated produced) _).mono (fun _ _ _ => trivial) ?_)
          fun _ _ _ => trivial
        intro e s' hlater heq
        obtain ⟨later, work, hrest⟩ := hlater heq
        exact ⟨_, work, .event hdeliver hhandle hobserved hrest⟩

/-- The loop that ends an instant has seen its work empty before its bound. -/
theorem propagate_settled (left : Nat) (pending : List (Pending I T)) (s : State I T σ) :
    Wp (g.propagate instant left pending)
      (fun published s'' => ∃ n < left, ∃ s', Propagates g instant pending s n published [] s' ∧
        g.quiesce instant s' = .ok () s'') (fun _ _ => True) s := by
  induction left generalizing pending s with
  | zero => trivial
  | succ left ih =>
    cases pending with
    | nil =>
      refine Wp.bind
        (Wp.intro (fun _ _ hquiesce => hquiesce) fun _ _ _ => trivial) ?_
      intro _ s₁ hquiesce
      exact ⟨0, Nat.succ_pos _, s, .none [] s, hquiesce⟩
    | cons first others =>
      refine Wp.bind
        (Wp.intro (fun _ _ hdeliver => hdeliver) fun _ _ _ => trivial) ?_
      rintro ⟨i, remaining⟩ s₁ hdeliver
      refine Wp.bind
        (Wp.intro (fun _ _ hhandle => hhandle) fun _ _ _ => trivial) ?_
      intro produced s₂ hhandle
      cases hobserved : g.observed instant produced with
      | error e => trivial
      | ok published =>
        refine Wp.bind (Q := fun r s₃ => r = published ∧ s₃ = s₂) ⟨rfl, rfl⟩ ?_
        rintro _ _ ⟨rfl, rfl⟩
        refine Wp.bind (ih (remaining ++ g.propagated produced) _) ?_
        rintro later s'' ⟨n, hn, s', hrest, hquiesce⟩
        exact ⟨n + 1, by omega, s', .event hdeliver hhandle hobserved hrest, hquiesce⟩

/-- An instant that ends after `n` events, at which no instance has asked for
an instant already reached, is settled with the observations of these events
exactly if `n` is below the bound.  The importer refuses an instant exactly if
as many events as the bound have been handled, whether or not work is left. -/
theorem settle_succeeds_iff (g : Group I T σ ε) (instant : Int) {pending : List (Pending I T)}
    (hpending : pending ≠ []) (s : State I T σ) :
    (∀ {n : Nat} {published : List Message} {s' s'' : State I T σ},
      Propagates g instant pending s n published [] s' → g.quiesce instant s' = .ok () s'' →
        (g.settle instant pending s = .ok published s'' ↔ n < maxPropagations)) ∧
      ∀ s', g.settle instant pending s = .error (.propagations instant) s' ↔
        ∃ published work, Propagates g instant pending s maxPropagations published work s' := by
  have hsettle : g.settle instant pending = g.propagate instant maxPropagations pending := by
    rw [settle, if_neg hpending]
  rw [hsettle]
  refine ⟨?_, fun s' => ⟨?_, ?_⟩⟩
  · intro n published s' s'' h hquiesce
    constructor
    · intro hok
      by_contra hge
      obtain ⟨earlier, rest, s₁, hfirst⟩ := h.take (not_lt.mp hge)
      rw [hfirst.refused] at hok
      cases hok
    · intro hlt
      exact h.settles hlt hquiesce
  · intro herror
    exact (propagate_refused maxPropagations pending s).of_error herror rfl
  · rintro ⟨published, work, h⟩
    exact h.refused

/-- An FMU with a send Clock, which is up until the discrete states are updated if
the FMU has its payload to send. -/
def node (payload : Bytes) : Fmu Bool Unit where
  enterEventMode := pure ()
  enterStepMode := pure ()
  doStep := fun _ _ => pure
    { eventNeeded := false, terminate := false, earlyReturn := false, lastSuccessfulTime := 0 }
  getClock := fun _ => get
  setClock := fun _ => pure ()
  getBinary := fun _ => pure payload
  setBinary := fun _ _ => pure ()
  getIntervalFraction := fun _ => throw ()
  updateDiscreteStates := do
    set false
    pure { needUpdate := false, terminate := false, nextEventTime := none }

/-- Such FMUs, each with one terminal, and the terminals connected in pairs. -/
def pairedGroup (size : Nat) : Group (Fin size) (Fin size) (fun _ => Bool) (fun _ => Unit) where
  instances := List.finRange size
  nodup := List.nodup_finRange size
  member := fun i => {
    name := "node"
    busSimulation := false
    fmu := node [1]
    triggered := [⟨i, 1, 2, "Tx_Clock"⟩]
    countdown := [] }
  transceiver := fun i => {
    owner := i
    name := "bus"
    receiveClock := 3
    receiveData := 4
    receiveName := "Rx_Data"
    capacity := 1
    peer := some ⟨(i.val ^^^ 1) % size, Nat.mod_lt _ i.pos⟩
    observation := none
    injection := none }
  transceivers := List.finRange size

def pairedStart (size : Nat) (sends : Fin size → Bool) :
    State (Fin size) (Fin size) (fun _ => Bool) where
  members := fun i => {
    fmu := sends i, buffers := fun _ => .new, inEvent := true, eventPending := false,
    nextEventTime := none }
  history := []

/-- The events initialization ended in. -/
def pairedWork (size : Nat) : List (Pending (Fin size) (Fin size)) :=
  (pairedGroup size).instances.map .event

/-- How many events an instant has shows in the bounds that settle it. -/
theorem exists_propagates {s : State I T σ}
    (hok : returns (g.propagate instant (n + 1) pending s) = true)
    (hrefused : returns (g.propagate instant n pending s) = false) :
    ∃ published s' s'', Propagates g instant pending s n published [] s' ∧
      g.quiesce instant s' = .ok () s'' := by
  obtain ⟨published, s'', hok⟩ := exists_of_returns hok
  obtain ⟨k, hk, s', h, hquiesce⟩ := (propagate_settled (n + 1) pending s).of_ok hok
  obtain rfl : k = n := by
    by_contra hne
    rw [h.settles (by omega) hquiesce] at hrefused
    cases hrefused
  exact ⟨published, s', s'', h, hquiesce⟩

/-- In a group of four FMUs, one of which sends to its peer, the event of
initialization is settled in five events. -/
theorem settle_succeeds_iff_paired : pairedWork 4 ≠ [] ∧ ∃ published s' s'',
      Propagates (pairedGroup 4) 0 (pairedWork 4) (pairedStart 4 (·.val == 0)) 5 published [] s' ∧
        (pairedGroup 4).quiesce 0 s' = .ok () s'' ∧
        (pairedGroup 4).settle 0 (pairedWork 4) (pairedStart 4 (·.val == 0)) =
          .ok published s'' := by
  have hwork : pairedWork 4 ≠ [] := by decide
  obtain ⟨published, s', s'', h, hquiesce⟩ :=
    exists_propagates (by decide +kernel : returns
      ((pairedGroup 4).propagate 0 6 (pairedWork 4) (pairedStart 4 (·.val == 0))) = true)
      (by decide +kernel)
  have hsettled := (settle_succeeds_iff (pairedGroup 4) 0 hwork (pairedStart 4 (·.val == 0))).1 h
    hquiesce
  exact ⟨hwork, published, s', s'', h, hquiesce, hsettled.mpr (by decide)⟩

/-- In a group of 100 silent FMUs it ends after 100 events, and is refused. -/
theorem settle_refuses_ended : pairedWork 100 ≠ [] ∧ maxPropagations = 100 ∧ ∃ published s' s'',
      Propagates (pairedGroup 100) 0 (pairedWork 100) (pairedStart 100 fun _ => false) 100
        published [] s' ∧
        (pairedGroup 100).quiesce 0 s' = .ok () s'' ∧
        (pairedGroup 100).settle 0 (pairedWork 100) (pairedStart 100 fun _ => false) =
          .error (.propagations 0) s' := by
  have hwork : pairedWork 100 ≠ [] := by decide
  obtain ⟨published, s', s'', h, hquiesce⟩ :=
    exists_propagates
      (by decide +kernel : returns ((pairedGroup 100).propagate 0 101 (pairedWork 100)
        (pairedStart 100 fun _ => false)) = true)
      (by decide +kernel)
  exact ⟨hwork, rfl, published, s', s'', h, hquiesce, h.refused⟩

end SilFormal.Fmi.Group
