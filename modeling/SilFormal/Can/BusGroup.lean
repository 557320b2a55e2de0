import SilFormal.Can.HandledEvent
import SilFormal.Fmi.Coordination
import SilFormal.Fmi.Propagation

/-!
# A group that contains the CAN model

The other instances of the group are arbitrary FMUs.  They reach the CAN model
only through the terminals the group drives, so between the calls of the group
the importer and the CAN model agree, and the group never leaves an instant
the bus is due at without an event of the CAN model.
-/

namespace SilFormal.Can

open Fmi List

variable {J T α : Type} {τ δ : J → Type}

/-- The types of a group with one further member. -/
abbrev beside (A : Type) (τ : J → Type) : Option J → Type
  | none => A
  | some j => τ j

/-- A group with a place for the CAN model beside its other instances. -/
abbrev BusGroup (J T : Type) (τ δ : J → Type) :=
  Group (Option J) T (beside Adapter τ) (beside AdapterError δ)

/-- The CAN model is an instance of the group, driven through the terminals
that are attached. -/
structure Hosts (g : BusGroup J T τ δ) (a : Attachment T) (name : String) : Prop where
  mem : none ∈ g.instances
  member_eq : g.member none = a.member name
  receive : ∀ x, (g.transceiver x).owner = none → x ∈ a.terminals ∧
    (g.transceiver x).receiveClock = reference (a.node x) rxClock ∧
    (g.transceiver x).receiveData = reference (a.node x) rxData

/-- What the history says of the CAN model: after every event the buffers of
active terminals end at the next event of the bus; the Clocks of the active
terminals that are driven are raised together at the instants the bus is due
at, and no Clock is raised otherwise; these are all active ones if the group
drives all; and no sub-interval starts at or passes an instant the bus is due
at. -/
def Synchronised (c : Configuration) (a : Attachment T)
    (e : Event (Option J) T (beside Adapter τ)) : Prop :=
  match e with
  | .handled none instant before after =>
    (∀ x ∈ a.terminals, a.Active after x → (after.buffers x).dueNs = after.fmu.bus.nextEvent) ∧
    (∀ x ∈ a.terminals, x ∈ a.dueTerminals before instant ↔
      a.Active before x ∧ before.fmu.bus.nextEvent = some instant) ∧
    (a.Full c → ∀ n, (∃ x ∈ a.dueTerminals before instant, a.node x = n) ↔
      before.fmu.bus.isActive n = true ∧ before.fmu.bus.nextEvent = some instant)
  | .stepped none start stop before => ∀ due ∈ before.fmu.bus.nextEvent, start < due ∧ stop ≤ due
  | _ => True

/-- A failure of the group that is not about a countdown Clock of the CAN model
raised wrongly. -/
def HarmlessToBus (full : Prop) (e : GroupFailure (Option J) (beside AdapterError δ)) : Prop :=
  ∀ f, e = .member none f → HarmlessFailure full f

/-- The group stands on an instant. -/
structure Standing (c : Configuration) (a : Attachment T) (now : Int)
    (s : Group.State (Option J) T (beside Adapter τ)) : Prop where
  agrees : Agrees c a now (s.members none)
  history : ∀ e ∈ s.history, Synchronised c a e

/-- The next event of the bus. -/
def busDue (s : Group.State (Option J) T (beside Adapter τ)) : Option Int :=
  (s.members none).fmu.bus.nextEvent

/-- What a failure leaves. -/
def Failed (c : Configuration) (a : Attachment T)
    (e : GroupFailure (Option J) (beside AdapterError δ))
    (s : Group.State (Option J) T (beside Adapter τ)) : Prop :=
  HarmlessToBus (a.Full c) e ∧ ∀ e ∈ s.history, Synchronised c a e

variable {g : BusGroup J T τ δ} {a : Attachment T} {name : String} {c : Configuration} {now : Int}
  {s : Group.State (Option J) T (beside Adapter τ)}

/-! ## Driving one instance -/

variable {e : Event (Option J) T (beside Adapter τ)}

theorem synchronised_append {history : List (Event (Option J) T (beside Adapter τ))}
    (h : ∀ e ∈ history, Synchronised c a e) (he : Synchronised c a e) :
    ∀ e' ∈ history ++ [e], Synchronised c a e' := by
  intro e' he'
  rcases mem_append.mp he' with hmem | hmem
  · exact h e' hmem
  · rw [mem_singleton.mp hmem]
    exact he

theorem Standing.note (h : Standing c a now s) (he : Synchronised c a e) :
    Standing c a now { s with history := s.history ++ [e] } where
  agrees := h.agrees
  history := synchronised_append h.history he

/-- What the importer itself refuses is not about the Clocks. -/
theorem check_own {x : Except (GroupFailure (Option J) (beside AdapterError δ)) α}
    (h : ∀ e ∈ s.history, Synchronised c a e)
    (hx : ∀ e, x = .error e → HarmlessToBus (a.Full c) e) :
    Wp (Group.check x) (fun r s' => x = .ok r ∧ s' = s) (Failed c a) s := by
  cases x with
  | ok r => exact ⟨rfl, rfl⟩
  | error e => exact ⟨hx e rfl, h⟩

theorem observed_error {full : Prop} {produced : List (T × Fmi.Bytes)}
    {e : GroupFailure (Option J) (beside AdapterError δ)} (h : g.observed now produced = .error e) :
    HarmlessToBus full e := by
  obtain ⟨p, _, hp⟩ := Fallible.exists_of_mapM_eq_error h
  rw [Observation.message] at hp
  split at hp
  · cases hp
    rintro _ ⟨⟩
  · cases hp

theorem injected_error {full : Prop} {inputs : List Message} {start stop : Int}
    {e : GroupFailure (Option J) (beside AdapterError δ)}
    (h : g.injected inputs start stop = .error e) : HarmlessToBus full e := by
  obtain ⟨arrived, _, he⟩ := Fallible.exists_of_mapM_eq_error h
  rw [Group.inject] at he
  split at he
  · cases he
    rintro _ ⟨⟩
  · split at he
    · rcases Fallible.bind_eq_error.mp he with hpayload | ⟨_, _, he⟩
      · rw [Injection.payload] at hpayload
        split at hpayload
        · cases hpayload
          rintro _ ⟨⟩
        · cases hpayload
      · cases he
    · cases he
      rintro _ ⟨⟩

variable [DecidableEq J]

/-- Driving another instance leaves the CAN model alone. -/
theorem onMember_some {j : J} (x : Instance.Drive T (τ j) (δ j) α)
    (h : ∀ e ∈ s.history, Synchronised c a e) :
    Wp (Group.onMember (ε := beside AdapterError δ) (some j) x)
      (fun _ s' => s'.members none = s.members none ∧ s'.history = s.history)
      (Failed c a) s := by
  rw [Group.onMember, Wp.zoom_iff]
  refine Wp.intro (fun _ st _ => ⟨?_, rfl⟩) fun f st _ => ⟨?_, h⟩
  · exact s.setMember_of_ne (by simp) st
  · rintro _ ⟨⟩

theorem onMember_none {x : Instance.Drive T Adapter AdapterError α}
    {Q : α → Instance.State T Adapter → Prop} (h : ∀ e ∈ s.history, Synchronised c a e)
    (hx : Wp x Q (fun f _ => HarmlessFailure (a.Full c) f) (s.members none)) :
    Wp (Group.onMember (ε := beside AdapterError δ) none x)
      (fun r s' => Q r (s'.members none) ∧ s'.history = s.history) (Failed c a) s := by
  rw [Group.onMember, Wp.zoom_iff]
  refine hx.mono (fun r st hQ => ⟨?_, rfl⟩) fun f st hf => ⟨?_, h⟩
  · exact hQ
  · rintro _ ⟨⟩
    exact hf

/-! ## Settling an instant -/

section Settling

variable (hg : Hosts g a name)

include hg

theorem handOver_spec (h : Standing c a now s) (x : T) (parts : List (Option Nat × Fmi.Bytes)) :
    Wp (g.handOver now x parts) (fun _ s' => Standing c a now s' ∧ busDue s' = busDue s)
      (Failed c a) s := by
  rw [Group.handOver]
  cases howner : (g.transceiver x).owner with
  | none =>
    obtain ⟨hx, hclock, hdata⟩ := hg.receive x howner
    rw [hg.member_eq]
    refine Wp.bind (onMember_none h.history (deliver_spec a name h.agrees hx hclock hdata _)) ?_
    rintro _ s₁ ⟨⟨hagrees, hbus⟩, hhistory⟩
    have h₁ : Standing c a now s₁ := ⟨hagrees, hhistory ▸ h.history⟩
    exact ⟨h₁.note trivial, congrArg Bus.nextEvent hbus⟩
  | some j =>
    refine Wp.bind (onMember_some _ h.history) ?_
    rintro _ s₁ ⟨hmember, hhistory⟩
    have h₁ : Standing c a now s₁ := ⟨hmember ▸ h.agrees, hhistory ▸ h.history⟩
    refine ⟨h₁.note trivial, ?_⟩
    rw [busDue, busDue, ← hmember]

theorem handOverEach_spec (h : Standing c a now s) {ι : Type} (items : List ι) (terminal : ι → T)
    (parts : ι → List (Option Nat × Fmi.Bytes)) :
    Wp (forM items fun item => g.handOver now (terminal item) (parts item))
      (fun _ s' => Standing c a now s' ∧ busDue s' = busDue s) (Failed c a) s := by
  refine Wp.for_each
    (I := fun _ s' => Standing c a now s' ∧ busDue s' = busDue s) ?_ ⟨h, rfl⟩
  rintro _ item _ s₁ _ ⟨h₁, hbus⟩
  exact (handOver_spec hg h₁ _ _).post fun _ _ h₂ => ⟨h₂.1, h₂.2.trans hbus⟩

theorem quiesce_spec (h : Standing c a now s) :
    Wp (g.quiesce now) (fun _ s' => Standing c a now s' ∧ busDue s' = busDue s)
      (Failed c a) s := by
  -- Both loops drive every instance once, and keep the bus.
  have hloop : ∀ {f : ∀ i, Instance.Drive T (beside Adapter τ i) (beside AdapterError δ i) Unit},
      (∀ {st}, Agrees c a now st → Wp (f none)
        (fun _ st' => Agrees c a now st' ∧ st'.fmu.bus = st.fmu.bus)
        (fun e _ => HarmlessFailure (a.Full c) e) st) →
      ∀ {s}, Standing c a now s → Wp (forM g.instances fun i => Group.onMember i (f i))
        (fun _ s' => Standing c a now s' ∧ busDue s' = busDue s) (Failed c a) s := by
    intro f hf s h
    refine Wp.for_each
      (I := fun _ s' => Standing c a now s' ∧ busDue s' = busDue s) ?_ ⟨h, rfl⟩
    rintro _ i _ s₁ _ ⟨h₁, hbus⟩
    cases i with
    | none =>
      refine (onMember_none h₁.history (hf h₁.agrees)).post ?_
      rintro _ s₂ ⟨⟨hagrees, hsame⟩, hhistory⟩
      exact ⟨⟨hagrees, hhistory ▸ h₁.history⟩, (congrArg Bus.nextEvent hsame).trans hbus⟩
    | some j =>
      refine (onMember_some _ h₁.history).post ?_
      rintro _ s₂ ⟨hmember, hhistory⟩
      refine ⟨⟨hmember ▸ h₁.agrees, hhistory ▸ h₁.history⟩, ?_⟩
      rw [← hbus, busDue, busDue, hmember]
  refine Wp.bind (hloop ?_ h) ?_
  · intro st hagrees
    rw [hg.member_eq]
    refine (requireNothingPassed_spec a name _ now).post ?_
    rintro _ _ rfl
    exact ⟨hagrees, rfl⟩
  · rintro _ s₁ ⟨h₁, hbus⟩
    refine (hloop ?_ h₁).post fun _ _ h₂ => ⟨h₂.1, h₂.2.trans hbus⟩
    intro st hagrees
    rw [hg.member_eq]
    exact leaveEvent_spec a name hagrees

variable [DecidableEq T] {pending : List (Pending (Option J) T)}

/-- Unless the next event is the CAN model's own, its work remains. -/
theorem deliverSameInstant_spec (h : Standing c a now s) (first : Pending (Option J) T)
    (others : List (Pending (Option J) T)) :
    Wp (g.deliverSameInstant now first others)
      (fun taken s' => Standing c a now s' ∧ busDue s' = busDue s ∧
        ((∃ item ∈ first :: others, g.owner item = none) →
          taken.1 = none ∨ ∃ item ∈ taken.2, g.owner item = none))
      (Failed c a) s := by
  rw [Group.deliverSameInstant]
  split
  · rename_i owed rest hfirst
    refine Wp.bind (handOverEach_spec hg h _ _ _) ?_
    rintro _ s₁ ⟨h₁, hbus⟩
    refine ⟨h₁, hbus, ?_⟩
    rintro ⟨item, hitem, howner⟩
    obtain ⟨before, after, heq, rfl, _, _⟩ := g.firstNode_eq_some hfirst
    rw [heq] at hitem
    rcases mem_append.mp hitem with hmem | hmem
    · exact .inr ⟨item, mem_append_left _ hmem, howner⟩
    · rcases mem_cons.mp hmem with rfl | hmem
      · exact .inl howner
      · exact .inr ⟨item, mem_append_right _ hmem, howner⟩
  · refine Wp.bind (handOverEach_spec hg h _ _ _) ?_
    rintro _ s₁ ⟨h₁, hbus⟩
    refine ⟨h₁, hbus, ?_⟩
    rintro ⟨item, hitem, howner⟩
    by_cases hfirst : g.owner first = none
    · exact .inl hfirst
    · refine .inr ⟨item, mem_filter.mpr ⟨hitem, ?_⟩, howner⟩
      rw [howner]
      simpa using Ne.symm hfirst

/-- An event of any instance; after its own, the CAN model is not due. -/
theorem groupHandle_spec (h : Standing c a now s) (i : Option J) : Wp (g.handle i now)
      (fun _ s' => Standing c a now s' ∧
        (i = none → ∀ due ∈ busDue s', now < due) ∧ (i ≠ none → busDue s' = busDue s))
      (Failed c a) s := by
  rw [Group.handle, Wp.bind_iff]
  cases i with
  | none =>
    rw [hg.member_eq]
    refine Wp.bind (onMember_none h.history (handle_spec a name h.agrees)) ?_
    rintro _ s₁ ⟨⟨hagrees, hahead⟩, hhistory⟩
    have h₁ : Standing c a now s₁ := ⟨hagrees, hhistory ▸ h.history⟩
    refine ⟨h₁.note ⟨?_, ?_, h.agrees.raised_of_full⟩, fun _ => hahead, fun hne => absurd rfl hne⟩
    · intro x hx hactive
      have hdue := (hagrees.knows x hx).due_eq
      rwa [if_pos hactive] at hdue
    · intro x hx
      rw [mem_dueTerminals a h.agrees]
      exact ⟨fun hall => hall.2, fun hdue => ⟨hx, hdue⟩⟩
  | some j =>
    refine Wp.bind (onMember_some _ h.history) ?_
    rintro _ s₁ ⟨hmember, hhistory⟩
    have h₁ : Standing c a now s₁ := ⟨hmember ▸ h.agrees, hhistory ▸ h.history⟩
    refine ⟨h₁.note trivial, (by simp), fun _ => ?_⟩
    rw [busDue, busDue, ← hmember]

/-- Settling an instant leaves nothing due at it, if the CAN model has work
when the bus is due.  By induction on the propagations that are left. -/
theorem propagate_spec (left : Nat) (h : Standing c a now s)
    (hdue : busDue s ≠ some now ∨ ∃ item ∈ pending, g.owner item = none) :
    Wp (g.propagate now left pending)
      (fun _ s' => Standing c a now s' ∧ busDue s' ≠ some now) (Failed c a) s := by
  induction left generalizing pending s with
  | zero => exact ⟨by rintro _ ⟨⟩, h.history⟩
  | succ left ih =>
    cases pending with
    | nil =>
      refine Wp.bind (quiesce_spec hg h) ?_
      rintro _ s₁ ⟨h₁, hbus⟩
      refine ⟨h₁, ?_⟩
      rw [hbus]
      exact hdue.resolve_right (by simp)
    | cons first others =>
      refine Wp.bind (deliverSameInstant_spec hg h first others) ?_
      rintro ⟨i, remaining⟩ s₁ ⟨h₁, hbus₁, hremaining⟩
      refine Wp.bind (groupHandle_spec hg h₁ i) ?_
      rintro produced s₂ ⟨h₂, hown, hother⟩
      refine Wp.bind (check_own h₂.history fun _ => observed_error) ?_
      rintro published _ ⟨_, rfl⟩
      rw [Wp.bind_iff]
      refine ih h₂ ?_
      by_cases hi : i = none
      · left
        intro heq
        have hlt := hown hi now heq
        omega
      · rw [hother hi, hbus₁]
        rcases hdue with hne | hwork
        · exact .inl hne
        · obtain ⟨item, hitem, howner⟩ := (hremaining hwork).resolve_left hi
          exact .inr ⟨item, mem_append_left _ hitem, howner⟩

theorem settle_spec (h : Standing c a now s)
    (hdue : busDue s ≠ some now ∨ ∃ item ∈ pending, g.owner item = none) :
    Wp (g.settle now pending)
      (fun _ s' => Standing c a now s' ∧ busDue s' ≠ some now) (Failed c a) s := by
  rw [Group.settle]
  split
  · rename_i hnil
    subst hnil
    exact ⟨h, hdue.resolve_right (by simp)⟩
  · exact propagate_spec hg _ h hdue

end Settling

/-! ## Advancing the group -/

section Advancing

variable (hg : Hosts g a name)

include hg

variable {stop : Int}

theorem steps_spec (h : Standing c a now s) (hnow : 0 ≤ now) (hahead : busDue s ≠ some now)
    (hstop : now < stop) :
    Wp (forM g.instances (g.step now stop)) (fun _ s' => Standing c a stop s')
      (Failed c a) s := by
  have hlater : ∀ due ∈ busDue s, now < due := by
    intro due hdue
    have hle := h.agrees.loop.ahead due hdue
    have hne : due ≠ now := fun heq => hahead (heq ▸ hdue)
    omega
  refine (Wp.for_each
    (I := fun done s' => (∀ e ∈ s'.history, Synchronised c a e) ∧
      (none ∉ done → s'.members none = s.members none) ∧
      (none ∈ done → Agrees c a stop (s'.members none))) ?_ ?_).post ?_
  · rintro done i rest s₁ hsplit ⟨hhistory, hbefore, hafter⟩
    have hfresh : i ∉ done := by
      intro hmem
      have hnodup := g.nodup
      rw [hsplit, nodup_append] at hnodup
      exact hnodup.2.2 i hmem i mem_cons_self rfl
    rw [Group.step, Wp.bind_iff]
    cases i with
    | none =>
      have hmember := hbefore hfresh
      rw [hg.member_eq]
      refine Wp.bind (onMember_none hhistory
        (step_spec a name (hmember ▸ h.agrees) hnow hstop.le)) ?_
      rintro _ s₂ ⟨⟨hagrees, hdue⟩, hsame⟩
      refine ⟨synchronised_append (hsame ▸ hhistory) fun due hmem => ⟨?_, hdue due hmem⟩,
        fun hnot => absurd (by simp) hnot, fun _ => hagrees⟩
      exact hlater due (by rwa [busDue, ← hmember])
    | some j =>
      refine Wp.bind (onMember_some _ hhistory) ?_
      rintro _ s₂ ⟨hmember, hsame⟩
      refine ⟨synchronised_append (hsame ▸ hhistory) trivial, fun hnot => ?_, fun hmem => ?_⟩
      · exact hmember.trans (hbefore (by simpa using hnot))
      · exact hmember ▸ hafter (by simpa using hmem)
  · exact ⟨h.history, fun _ => rfl, by simp⟩
  · rintro _ s' ⟨hhistory, _, hagrees⟩
    exact ⟨hagrees hg.mem, hhistory⟩

omit [DecidableEq J] in
/-- When the bus is due, the importer owes the CAN model an event. -/
theorem due_of_busDue (h : Standing c a now s) (hdue : busDue s = some now) :
    (g.member none).due (s.members none) now = true := by
  obtain ⟨x, hx, hactive⟩ := h.agrees.driven (Option.ne_none_iff_exists'.mpr ⟨now, hdue⟩)
  have hbuffer := (h.agrees.due_iff hx).mpr ⟨hactive, hdue⟩
  have hmem : a.sendSide x ∈ (a.member name).dueBuffers (s.members none) now :=
    mem_filter.mpr ⟨mem_map_of_mem hx, decide_eq_true hbuffer⟩
  rw [hg.member_eq, Instance.due]
  simp [ne_nil_of_mem hmem]

variable [DecidableEq T]

/-- The loop of one Step, by induction on the bound of its sub-intervals. -/
theorem advanceLoop_spec (left : Nat) {injected : List (Int × Pending (Option J) T)}
    (h : Standing c a now s) (hnow : 0 ≤ now) (hahead : busDue s ≠ some now)
    (hbound : stop ≤ now + left) (hstop : now ≤ stop)
    (hinjected : ∀ owed ∈ injected, owed.1 ≤ stop) :
    Wp (g.advanceLoop stop left now injected)
      (fun _ s' => Standing c a stop s' ∧ busDue s' ≠ some stop) (Failed c a) s := by
  induction left generalizing now s injected with
  | zero =>
    obtain rfl : now = stop := by omega
    exact ⟨h, hahead⟩
  | succ left ih =>
    rw [Group.advanceLoop]
    split
    · rename_i hlt
      rw [Wp.bind_iff]
      have hafter := g.lt_boundary s injected hlt
      have hbefore : g.boundary s now stop injected ≤ stop := g.boundary_le_stop s hinjected
      refine Wp.bind (steps_spec hg h hnow hahead hafter) ?_
      rintro _ s₁ h₁
      have h₁ := h₁.note (e := .point (g.boundary s now stop injected)) trivial
      rw [Wp.bind_iff, Group.note, Wp.modify_iff, Wp.bind_iff]
      refine Wp.bind (settle_spec hg h₁ ?_) ?_
      · by_cases hdue : busDue s₁ = some (g.boundary s now stop injected)
        · refine .inr ⟨.event none, mem_append_right _ (mem_map_of_mem ?_), rfl⟩
          exact mem_filter.mpr ⟨hg.mem, due_of_busDue hg h₁ hdue⟩
        · exact .inl hdue
      · rintro published s₂ ⟨h₂, hahead₂⟩
        rw [Wp.bind_iff]
        exact ih h₂ (by omega) hahead₂ (by omega) hbefore fun owed howed =>
          hinjected owed (mem_of_mem_filter howed)
    · obtain rfl : now = stop := by omega
      exact ⟨h, hahead⟩

/-- One Step: the Messages it starts with are handed over at an instant the
bus is not due at. -/
theorem advance_spec {x : Group.Step} (h : Standing c a x.t s) (ht : 0 ≤ x.t)
    (hahead : busDue s ≠ some x.t) :
    Wp (g.advance x.t x.dt x.inputs)
      (fun _ s' => Standing c a (x.t + x.dt) s' ∧ busDue s' ≠ some (x.t + x.dt))
      (Failed c a) s := by
  refine Wp.bind (check_own h.history fun _ => injected_error) ?_
  rintro injected _ ⟨hinjected, rfl⟩
  rw [Wp.bind_iff, Group.note]
  refine Wp.bind (settle_spec hg (h.note trivial) (.inl hahead)) ?_
  rintro published s₁ ⟨h₁, hahead₁⟩
  rw [Wp.bind_iff]
  exact advanceLoop_spec hg x.dt h₁ ht hahead₁ le_rfl (by omega) fun owed howed =>
    (g.mem_injected hinjected owed (mem_of_mem_filter howed)).2

end Advancing

/-! ## A Run -/

/-- Where a Run stands between two Steps. -/
structure Between (c : Configuration) (a : Attachment T)
    (p : Group.Participant (Option J) T (beside Adapter τ)) : Prop where
  nonneg : 0 ≤ p.communicationPoint
  standing : Standing c a p.communicationPoint p.group
  ahead : busDue p.group ≠ some p.communicationPoint

variable [DecidableEq T]

section Running

variable (hg : Hosts g a name)

include hg

variable {p : Group.Participant (Option J) T (beside Adapter τ)}

theorem onStep_spec (h : Between c a p) (x : Group.Step) :
    Wp (g.onStep x) (fun _ p' => Between c a p')
      (fun e p' => Failed c a e p'.group) p := by
  rw [Group.onStep, Wp.bind_iff, Wp.get_iff]
  split
  · rename_i hcontiguous
    rw [Wp.bind_iff, Wp.modify_iff, Wp.bind_iff, Wp.zoom_iff]
    refine (advance_spec hg (hcontiguous ▸ h.standing) (hcontiguous ▸ h.nonneg)
      (hcontiguous ▸ h.ahead)).mono ?_ fun _ _ hfailed => hfailed
    rintro published s' ⟨hstanding, hahead⟩
    refine ⟨?_, hstanding, hahead⟩
    have hnonneg := h.nonneg
    show 0 ≤ x.t + x.dt
    omega
  · exact ⟨by rintro _ ⟨⟩, h.standing.history⟩

theorem run_spec (h : Between c a p) (steps : List Group.Step) :
    Wp (g.run steps) (fun _ p' => Between c a p')
      (fun e p' => Failed c a e p'.group) p := by
  induction steps generalizing p with
  | nil => exact h
  | cons x rest ih =>
    refine Wp.bind (onStep_spec hg h x) ?_
    intro _ p₁ h₁
    exact Wp.bind (ih h₁) fun _ _ h₂ => h₂

/-- The events of initialization. -/
theorem onInit_spec (h : Between c a p) (hpoint : p.communicationPoint = 0) :
    Wp g.onInit (fun _ p' => Between c a p')
      (fun e p' => Failed c a e p'.group) p := by
  have hstanding : Standing c a 0 p.group := hpoint ▸ h.standing
  have hahead : busDue p.group ≠ some 0 := hpoint ▸ h.ahead
  rw [Group.onInit, Wp.bind_iff, Wp.zoom_iff, Group.initializeGroup, Wp.bind_iff, Group.note]
  refine (settle_spec hg (hstanding.note (e := .point 0) trivial) (.inl hahead)).mono ?_
    fun _ _ hfailed => hfailed
  rintro published s' ⟨h', hahead'⟩
  exact ⟨h.nonneg, hpoint.symm ▸ h', hpoint.symm ▸ hahead'⟩

end Running

/-- The CAN model as a group has instantiated and initialized it. -/
def Attachment.instantiated (_ : Attachment T) (bus : Bus) : Instance.State T Adapter where
  fmu := .initialized bus
  buffers := fun _ => .new
  inEvent := true
  eventPending := false
  nextEventTime := none

omit [DecidableEq T] in
theorem agrees_instantiated {bus : Bus} (hstart : c.start = .ok bus) :
    Agrees c a 0 (a.instantiated bus) := by
  have hnext := EventLoop.nextEvent_start hstart
  exact {
    loop := .start hstart le_rfl
    time_eq := rfl
    mode_eq := rfl
    notEvaluated := rfl
    notRaised := fun _ => rfl
    received := fun _ hrx => absurd hrx (by simp [Attachment.instantiated, Adapter.initialized])
    knows := fun x _ => {
      due_eq := by
        simp [Attachment.instantiated, Adapter.initialized, CountdownBuffer.new, hnext]
      interval_eq := by simp [Attachment.instantiated, Adapter.initialized, hnext] }
    driven := fun hne => absurd hnext hne }

/-- `FmuGroupParticipant`, from the event of initialization over the Steps. -/
def session (g : BusGroup J T τ δ) (steps : List Group.Step) :
    EStateM (GroupFailure (Option J) (beside AdapterError δ))
      (Group.Participant (Option J) T (beside Adapter τ)) (List (List Message)) := do
  g.onInit
  g.run steps

/-- In every Run of a group that contains the CAN model, whatever the other
FMUs do and whether or not the Run fails, the importer and the CAN model agree
on the next event of the bus; and the Run does not fail for a countdown Clock
that is not raised at its due instant, or raised away from it, or, if the group
drives all active terminals, raised without the others. -/
theorem session_synchronised (hg : Hosts g a name) {bus : Bus} (hstart : c.start = .ok bus)
    {p : Group.Participant (Option J) T (beside Adapter τ)}
    (hmember : p.group.members none = a.instantiated bus) (hhistory : p.group.history = [])
    (hpoint : p.communicationPoint = 0) (steps : List Group.Step) :
    Wp (session g steps)
      (fun _ p' => ∀ e ∈ p'.group.history, Synchronised c a e)
      (fun failure p' => HarmlessToBus (a.Full c) failure ∧
        ∀ e ∈ p'.group.history, Synchronised c a e) p := by
  have hagrees : Agrees c a 0 (p.group.members none) := hmember ▸ agrees_instantiated hstart
  have hbetween : Between c a p := {
    nonneg := hpoint ▸ le_rfl
    standing := hpoint.symm ▸ ⟨hagrees, by simp [hhistory]⟩
    ahead := by
      have hnext : busDue p.group = none := by
        rw [busDue, hmember]
        exact EventLoop.nextEvent_start hstart
      simp [hnext] }
  refine Wp.bind (onInit_spec hg hbetween hpoint) ?_
  intro _ p₁ h₁
  exact (run_spec hg h₁ steps).post fun _ _ h₂ => h₂.standing.history

/-! ## A bus of two nodes -/

section Pair

variable (payload : Fmi.Bytes) (nodes : List Terminal) (hnodup : nodes.Nodup)

/-- The terminals of the CAN model that are connected. -/
def pairAttachment : Attachment (Bool × Terminal) where
  terminals := nodes.map fun n => (true, n)
  node := fun x => x.2
  clockName := fun _ => "Tx_Clock"
  nodup := by
    rw [List.map_map]
    exact hnodup.map fun n m h => h

/-- The CAN model, and a node for each terminal that is connected. -/
def pairGroup : BusGroup Terminal (Bool × Terminal) (fun _ => Bool) (fun _ => Unit) where
  instances := none :: nodes.map some
  nodup := by simpa using hnodup.map (Option.some_injective _)
  member := fun i =>
    match i with
    | none => (pairAttachment nodes hnodup).member "bus"
    | some n => {
        name := "node"
        busSimulation := false
        fmu := Group.node payload
        triggered := [{ transceiver := (false, n), data := 1, clock := 3, clockName := "Tx_Clock" }]
        countdown := [] }
  transceiver := fun x => {
    owner := if x.1 = true ∧ x.2 ∈ nodes then none else some x.2
    name := "CanTransceiver"
    receiveClock := reference x.2 rxClock
    receiveData := reference x.2 rxData
    receiveName := "Rx_Data"
    capacity := 2048
    peer := some (!x.1, x.2)
    observation := none
    injection := none }
  transceivers := []

theorem pairGroup_hosts :
    Hosts (pairGroup payload nodes hnodup) (pairAttachment nodes hnodup) "bus" where
  mem := mem_cons_self
  member_eq := rfl
  receive := by
    rintro ⟨side, n⟩ howner
    have hconnected : side = true ∧ n ∈ nodes := by
      by_contra hnot
      simp [pairGroup, hnot] at howner
    refine ⟨?_, rfl, rfl⟩
    rw [hconnected.1]
    exact mem_map_of_mem hconnected.2

/-- Before initialization, with everything still to be sent. -/
def pairStart (bus : Bus) :
    Group.Participant (Option Terminal) (Bool × Terminal) (beside Adapter fun _ => Bool) where
  group := {
    members := fun i =>
      match i with
      | none => (pairAttachment nodes hnodup).instantiated bus
      | some _ => {
          fmu := true, buffers := fun _ => .new, inEvent := true, eventPending := false,
          nextEventTime := none }
    history := [] }
  pendingActivations := []
  communicationPoint := 0

end Pair

/-- A bus with two active terminals and no faults. -/
def pairConfiguration :
    Configuration := { Bus.faultyPair with faultRuleCount := 0, faultRules := [] }

/-- The bus of that configuration. -/
def pairBus : Bus := pairConfiguration.start.toOption.getD {}

theorem pairConfiguration_start : pairConfiguration.start = .ok pairBus := by
  have hok : pairConfiguration.start.isOk = true := by decide +kernel
  cases hstart : pairConfiguration.start with
  | error e =>
    rw [hstart] at hok
    cases hok
  | ok bus =>
    rw [pairBus, hstart]
    rfl

/-- Initialization and one Step of a millisecond. -/
def pairSession (payload : Fmi.Bytes) (nodes : List Terminal) (hnodup : nodes.Nodup) :=
  session (pairGroup payload nodes hnodup) [{ t := 0, dt := 1000000, inputs := [] }]
    (pairStart nodes hnodup pairBus)

theorem session_synchronised_pair :
    ∃ published p', pairSession (Bus.faultyInputs 0) [0, 1] (by decide) = .ok published p' ∧
      ∀ e ∈ p'.group.history,
        Synchronised pairConfiguration (pairAttachment [0, 1] (by decide)) e := by
  obtain ⟨published, p', hsession⟩ := exists_of_returns
    (show returns (pairSession (Bus.faultyInputs 0) [0, 1] (by decide)) = true by decide +kernel)
  exact ⟨published, p', hsession, (session_synchronised (pairGroup_hosts _ _ _)
    pairConfiguration_start rfl rfl rfl _).of_ok hsession⟩

/-- Whether the CAN model rejected Clocks that were not raised together. -/
def rejectedApart : GroupFailure (Option Terminal) (beside AdapterError fun _ => Unit) → Bool
  | .member none (.status name .notTogether) => name = "fmi3GetBinary"
  | _ => false

/-- With one of two active terminals connected, the importer raises one of two
active countdown Clocks when the Format Error of an unknown operation is due,
and the CAN model rejects it. -/
theorem session_apart : pairConfiguration.start = .ok pairBus ∧ pairConfiguration.activeNodes = 2 ∧
      Hosts (pairGroup [0x99, 0, 0, 0, 8, 0, 0, 0] [0] (by decide))
        (pairAttachment [0] (by decide)) "bus" ∧
      ∃ p', pairSession [0x99, 0, 0, 0, 8, 0, 0, 0] [0] (by decide) =
        .error (.member none (.status "fmi3GetBinary" .notTogether)) p' := by
  refine ⟨pairConfiguration_start, rfl, pairGroup_hosts _ _ _, ?_⟩
  obtain ⟨e, p', hsession, hkind⟩ := exists_of_fails
    (show fails rejectedApart
      (pairSession [0x99, 0, 0, 0, 8, 0, 0, 0] [0] (by decide)) = true by decide +kernel)
  refine ⟨p', ?_⟩
  rw [hsession]
  unfold rejectedApart at hkind
  split at hkind
  · rw [of_decide_eq_true hkind]
  · cases hkind

end SilFormal.Can
