import SilFormal.Can.BusGroup
import SilFormal.Fmi.SameInstant
import SilFormal.Library.Commuting

/-!
# Arbitration and the order of delivery

What is handed to the terminals of the CAN model is kept per terminal until the
event is evaluated.  Payloads of different terminals may therefore be handed
over in any order, and two orders of the work of one instant that agree on
every terminal lead the CAN model into the same evaluation.
-/

namespace SilFormal.Can

open Fmi Commuting List

variable {J T α : Type} {τ δ : J → Type}

namespace Adapter

variable {i : Adapter} {F : Prop}

/-- A rule for failures that do not matter one by one. -/
theorem invokeFmi_const {body : Act α} {Q : α → Adapter → Prop} (hmode : i.mode = .error → F)
    (h : i.mode ≠ .error → Wp body Q (fun _ _ => F) i) :
    Wp (invokeFmi body) Q (fun _ _ => F) i := by
  by_cases hi : i.mode = .error
  · rw [Wp, invokeFmi, if_pos hi]
    exact hmode hi
  · exact invokeFmi_of hi (h hi)

/-- When the Clock of a receive side may be raised. -/
structure Raisable (i : Adapter) (n : Terminal) : Prop where
  mode : i.mode = .event
  notEvaluated : i.event.evaluated = false
  active : i.bus.isActive n = true
  notRaised : i.event.rx n = false

theorem setClock_rx_exact (i : Adapter) (n : Terminal) : Wp (setClock [reference n rxClock])
      (fun _ i' => i.Raisable n ∧ i' = i.withRx (Function.update i.event.rx n true))
      (fun _ _ => ¬ i.Raisable n) i := by
  have hreference := terminalOfReference_reference n rxClock (by decide)
  have hmod := reference_mod n rxClock (by decide)
  refine invokeFmi_const (fun herror h => by simp [h.mode] at herror) fun _ => ?_
  rw [Wp.bind_iff, Wp.get_iff, Wp.bind_iff, demand_iff]
  refine ⟨fun hmode => ?_, fun hmode h => hmode h.mode⟩
  rw [Wp.bind_iff, demand_iff]
  refine ⟨fun hevaluated => ?_, fun hevaluated h => hevaluated h.notEvaluated⟩
  rw [forM_cons, Wp.bind_iff, raise, Wp.bind_iff, Wp.get_iff, hreference]
  simp only [hmod, if_true]
  rw [Wp.bind_iff, demand_iff]
  refine ⟨fun _ => ?_, fun hfalse => absurd (.inl hmod) hfalse⟩
  rw [Wp.bind_iff, demand_iff]
  refine ⟨fun hactive => ?_, fun hactive h => hactive h.active⟩
  rw [Wp.bind_iff, demand_iff]
  exact ⟨fun hrx => ⟨⟨hmode, hevaluated, hactive, hrx⟩, rfl⟩, fun hrx h => hrx h.notRaised⟩

/-- When a payload may be written to a receive side. -/
structure Writable (i : Adapter) (n : Terminal) (value : Bytes) : Prop where
  notEvaluated : i.event.evaluated = false
  active : i.bus.isActive n = true
  raised : i.event.rx n = true
  notWritten : i.event.written n = false
  size : value.length ≤ maxBinarySize

theorem setBinary_exact (n : Terminal) (value : Bytes) (hmode : i.mode = .event) :
    Wp (setBinary (reference n rxData) value)
      (fun _ i' => i.Writable n value ∧ i' = i.withInput n value)
      (fun _ _ => ¬ i.Writable n value) i := by
  have hreference := terminalWith_reference n rxData (by decide)
  refine invokeFmi_const (fun herror => by simp [hmode] at herror) fun _ => ?_
  have hinit : ¬ i.mode = .initialization := by simp [hmode]
  rw [Wp.bind_iff, Wp.get_iff, Wp.bind_iff, requireInitializationOrEvent, demand_iff]
  refine ⟨fun _ => ?_, fun hfalse => absurd (.inr hmode) hfalse⟩
  rw [Wp.bind_iff, demand_iff]
  refine ⟨fun hevaluated => ?_, fun hevaluated h => hevaluated h.notEvaluated⟩
  rw [hreference, attempt, pure_bind, Wp.bind_iff, demand_iff]
  refine ⟨fun hactive => ?_, fun hactive h => hactive h.active⟩
  rw [Wp.bind_iff, demand_iff]
  refine ⟨fun hraised => ?_, fun hraised h => hraised (.inr h.raised)⟩
  rw [Wp.bind_iff, demand_iff]
  refine ⟨fun hfree => ⟨⟨hevaluated, hactive, ?_, ?_, hfree.2⟩, rfl⟩, fun hfree h => hfree ?_⟩
  · exact hraised.resolve_left hinit
  · exact hfree.1.resolve_left hinit
  · exact ⟨.inr h.notWritten, h.size⟩

end Adapter

/-! ## One payload -/

/-- When a terminal of the CAN model may be handed a payload. -/
structure Deliverable (st : Instance.State T Adapter) (n : Terminal) (payload : Fmi.Bytes) :
    Prop where
  mode : st.fmu.mode = if st.inEvent = true then .event else .step
  notEvaluated : st.fmu.event.evaluated = false
  active : st.fmu.bus.isActive n = true
  notRaised : st.fmu.event.rx n = false
  notWritten : st.fmu.event.written n = false
  size : payload.length ≤ maxBinarySize

/-- The CAN model in an event, with a payload of one terminal. -/
def delivered (st : Instance.State T Adapter) (n : Terminal) (payload : Fmi.Bytes) :
    Instance.State T Adapter :=
  { st with
    inEvent := true
    fmu := (Adapter.withRx { st.fmu with mode := .event }
      (Function.update st.fmu.event.rx n true)).withInput n payload }

section Deliver

variable {a : Attachment T} {name : String} {st : Instance.State T Adapter} {n : Terminal}
  {payload : Fmi.Bytes}

/-- The CAN model in an event. -/
def entered (st : Instance.State T Adapter) : Instance.State T Adapter :=
  if st.inEvent = true then st
  else { st with inEvent := true, fmu := { st.fmu with mode := .event } }

theorem enterEvent_exact (st : Instance.State T Adapter) : Wp (a.member name).enterEvent
      (fun _ st' => (st.inEvent = true ∨ st.fmu.mode = .step) ∧ st' = entered st)
      (fun _ _ => ¬ (st.inEvent = true ∨ st.fmu.mode = .step)) st := by
  rw [Instance.enterEvent, Wp.bind_iff, Wp.get_iff, entered]
  by_cases hevent : st.inEvent = true
  · rw [if_pos hevent, if_pos hevent]
    exact ⟨.inl hevent, rfl⟩
  · rw [if_neg hevent, if_neg hevent, Wp.bind_iff, Instance.call, Wp.zoom_iff]
    have hiff : st.inEvent = true ∨ st.fmu.mode = .step ↔ st.fmu.mode = .step := by simp [hevent]
    simp only [hiff]
    refine Adapter.invokeFmi_const (fun herror h => by simp [h] at herror) fun _ => ?_
    rw [Wp.bind_iff, Wp.get_iff, Wp.bind_iff, Adapter.demand_iff]
    exact ⟨fun hmode => ⟨hmode, rfl⟩, fun hmode => hmode⟩

theorem delivered_eq (h : st.fmu.mode = if st.inEvent = true then .event else .step) :
    delivered st n payload = { entered st with
      fmu := ((entered st).fmu.withRx (Function.update (entered st).fmu.event.rx n true)).withInput
        n payload } := by
  rw [entered]
  by_cases hevent : st.inEvent = true
  · obtain ⟨fmu, buffers, inEvent, eventPending, nextEventTime⟩ := st
    obtain ⟨bus, mode, time, event, eventsAtInstant, interval⟩ := fmu
    obtain rfl : inEvent = true := hevent
    obtain rfl : mode = .event := h
    rfl
  · rw [if_neg hevent]
    rfl

/-- The three calls that hand a payload over succeed together. -/
theorem deliverable_iff : Deliverable st n payload ↔ (st.inEvent = true ∨ st.fmu.mode = .step) ∧
      (entered st).fmu.Raisable n ∧
      ((entered st).fmu.withRx (Function.update (entered st).fmu.event.rx n true)).Writable
        n payload := by
  rw [entered]
  by_cases hevent : st.inEvent = true
  · rw [if_pos hevent]
    constructor
    · intro h
      exact ⟨.inl hevent, ⟨h.mode.trans (if_pos hevent), h.notEvaluated, h.active, h.notRaised⟩,
        ⟨h.notEvaluated, h.active, Function.update_self .., h.notWritten, h.size⟩⟩
    · rintro ⟨_, hraisable, hwritable⟩
      exact { hraisable, hwritable with mode := hraisable.mode.trans (if_pos hevent).symm }
  · rw [if_neg hevent]
    constructor
    · intro h
      exact ⟨.inr (h.mode.trans (if_neg hevent)), ⟨rfl, h.notEvaluated, h.active, h.notRaised⟩,
        ⟨h.notEvaluated, h.active, Function.update_self .., h.notWritten, h.size⟩⟩
    · rintro ⟨hentry, hraisable, hwritable⟩
      exact { hraisable, hwritable with
        mode := (hentry.resolve_left hevent).trans (if_neg hevent).symm }

/-- A payload is handed over exactly when the terminal may be handed one. -/
theorem deliver_exact {I : Type} {transceiver : Transceiver I T}
    (hclock : transceiver.receiveClock = reference n rxClock)
    (hdata : transceiver.receiveData = reference n rxData) (a : Attachment T) (name : String)
    (payload : Fmi.Bytes) (st : Instance.State T Adapter) :
    Wp ((a.member name).deliver transceiver payload)
      (fun _ st' => (payload.length ≤ transceiver.capacity ∧ Deliverable st n payload) ∧
        st' = delivered st n payload)
      (fun _ _ => ¬ (payload.length ≤ transceiver.capacity ∧ Deliverable st n payload)) st := by
  rw [Instance.deliver]
  split
  · rename_i hlarge
    exact fun h => absurd h.1 (Nat.not_le.mpr hlarge)
  · rename_i hfits
    rw [hclock, hdata, Wp.bind_iff]
    refine (enterEvent_exact st).mono ?_ fun _ _ hentry h => hentry (deliverable_iff.mp h.2).1
    rintro _ _ ⟨hentry, rfl⟩
    rw [Wp.bind_iff, Instance.call, Wp.zoom_iff]
    refine (Adapter.setClock_rx_exact _ n).mono ?_ fun _ _ hraisable h =>
      hraisable (deliverable_iff.mp h.2).2.1
    rintro _ _ ⟨hraisable, rfl⟩
    rw [Instance.call, Wp.zoom_iff]
    have hwrite := Adapter.setBinary_exact
      (i := (entered st).fmu.withRx (Function.update (entered st).fmu.event.rx n true)) n payload
      hraisable.mode
    refine hwrite.mono ?_ ?_
    · rintro _ _ ⟨hwritable, rfl⟩
      have h : Deliverable st n payload := deliverable_iff.mpr ⟨hentry, hraisable, hwritable⟩
      exact ⟨⟨Nat.not_lt.mp hfits, h⟩, (delivered_eq h.mode).symm⟩
    · exact fun _ _ hwritable h => hwritable (deliverable_iff.mp h.2).2.2

/-- Payloads of different terminals may be handed over in either order. -/
theorem Deliverable.swap {m : Terminal} {later : Fmi.Bytes} (hne : n ≠ m)
    (h : Deliverable st n payload) (hlater : Deliverable (delivered st n payload) m later) :
    Deliverable st m later ∧ Deliverable (delivered st m later) n payload ∧
      delivered (delivered st m later) n payload = delivered (delivered st n payload) m later := by
  have hcomm : ∀ {β : Type} (f : Terminal → β) (v w : β),
      Function.update (Function.update f m v) n w = Function.update (Function.update f n w) m v :=
    fun f v w => Function.update_comm hne.symm v w f
  refine ⟨⟨h.mode, h.notEvaluated, hlater.active, ?_, ?_, hlater.size⟩,
    ⟨rfl, h.notEvaluated, h.active, ?_, ?_, h.size⟩, ?_⟩
  · exact (Function.update_of_ne hne.symm _ _).symm.trans hlater.notRaised
  · exact (Function.update_of_ne hne.symm _ _).symm.trans hlater.notWritten
  · exact (Function.update_of_ne hne _ _).trans h.notRaised
  · exact (Function.update_of_ne hne _ _).trans h.notWritten
  · simp only [delivered, Adapter.withRx, Adapter.withInput]
    rw [hcomm st.fmu.event.inputs, hcomm st.fmu.event.written, hcomm st.fmu.event.rx]

end Deliver

/-! ## The payloads of one event -/

/-- The state of a group around the CAN model. -/
abbrev BusState (J T : Type) (τ : J → Type) : Type :=
  Group.State (Option J) T (beside Adapter τ)

variable {g : BusGroup J T τ δ} {a : Attachment T} {name : String} {instant : Int} {x : T}
  {xs : List T} {parts : T → List (Option Nat × Fmi.Bytes)} {st : Instance.State T Adapter}
  {s s' : BusState J T τ}

/-- A terminal of the CAN model is handed its payload. -/
def Hands (g : BusGroup J T τ δ) (payload : T → Fmi.Bytes) (x : T)
    (st st' : Instance.State T Adapter) : Prop :=
  (g.transceiver x).owner = none ∧
    (g.member none).deliver (g.transceiver x) (payload x) st = .ok () st'

theorem Hosts.hands_iff (hg : Hosts g a name) {payload : T → Fmi.Bytes}
    {st' : Instance.State T Adapter} :
    Hands g payload x st st' ↔ (g.transceiver x).owner = none ∧
      ((payload x).length ≤ (g.transceiver x).capacity ∧
        Deliverable st (a.node x) (payload x)) ∧ st' = delivered st (a.node x) (payload x) := by
  refine and_congr_right fun howner => ?_
  obtain ⟨_, hclock, hdata⟩ := hg.receive x howner
  rw [hg.member_eq]
  have hexact := deliver_exact hclock hdata a name (payload x) st
  constructor
  · exact fun h => hexact.of_ok h
  · rintro ⟨hmay, rfl⟩
    cases h : (a.member name).deliver (g.transceiver x) (payload x) st with
    | ok _ st' => rw [(hexact.of_ok h).2]
    | error e st' => exact absurd hmay (hexact.of_error h)

theorem Hosts.hands_commutes (hg : Hosts g a name) (payload : T → Fmi.Bytes) {y : T} (hxy : x ≠ y) :
    Commutes (Hands g payload) x y := by
  intro st st₁ st₂ hx hy
  obtain ⟨hxowner, ⟨hxfits, hxmay⟩, rfl⟩ := hg.hands_iff.mp hx
  obtain ⟨hyowner, ⟨hyfits, hymay⟩, rfl⟩ := hg.hands_iff.mp hy
  have hnode : a.node x ≠ a.node y := fun heq =>
    hxy (inj_on_of_nodup_map a.nodup (hg.receive x hxowner).1 (hg.receive y hyowner).1 heq)
  obtain ⟨hymay', hxmay', heq⟩ := hxmay.swap hnode hymay
  exact ⟨delivered st (a.node y) (payload y), hg.hands_iff.mpr ⟨hyowner, ⟨hyfits, hymay'⟩, rfl⟩,
    hg.hands_iff.mpr ⟨hxowner, ⟨hxfits, hxmay'⟩, heq.symm⟩⟩

variable [DecidableEq J]

theorem handOver_eq (howner : (g.transceiver x).owner = none)
    (parts : List (Option Nat × Fmi.Bytes)) :
    g.handOver instant x parts = (do
      Group.onMember none ((g.member none).deliver (g.transceiver x) (parts.flatMap (·.2)))
      Group.note (.handed x instant parts)) := by
  rw [Group.handOver, howner]

/-- Handing a payload to the CAN model touches no other instance. -/
theorem handOver_eq_ok (howner : (g.transceiver x).owner = none)
    (h : g.handOver instant x (parts x) s = .ok () s') :
    ∃ st, Hands g (fun x => (parts x).flatMap (·.2)) x (s.members none) st ∧
      s'.members = (s.setMember none st).members := by
  rw [handOver_eq howner] at h
  obtain ⟨_, s₁, hmember, hnote⟩ := bind_eq_ok_iff.mp h
  cases hnote
  obtain ⟨st, hdeliver, rfl⟩ := zoom_eq_ok_iff.mp hmember
  exact ⟨st, ⟨howner, hdeliver⟩, rfl⟩

theorem Hands.exists_handOver (h : Hands g (fun x => (parts x).flatMap (·.2)) x (s.members none) st)
    (instant : Int) :
    ∃ s', g.handOver instant x (parts x) s = .ok () s' ∧
      s'.members = (s.setMember none st).members := by
  have hmember : Group.onMember none
      ((g.member none).deliver (g.transceiver x) ((parts x).flatMap (·.2))) s =
        .ok () (s.setMember none st) := zoom_eq_ok_iff.mpr ⟨st, h.2, rfl⟩
  rw [handOver_eq h.1]
  exact ⟨_, bind_of_ok hmember _, rfl⟩

theorem members_setMember_setMember {s₁ : BusState J T τ} {st₁ : Instance.State T Adapter}
    (h : s₁.members = (s.setMember none st₁).members) (st : Instance.State T Adapter) :
    (s₁.setMember none st).members = (s.setMember none st).members := by
  rw [Group.State.setMember, h]
  exact Function.update_idem ..

theorem forM_handOver_eq_ok (hxs : ∀ x ∈ xs, (g.transceiver x).owner = none)
    (h : (forM xs fun x => g.handOver instant x (parts x)) s = .ok () s') :
    ∃ st, Along (Hands g fun x => (parts x).flatMap (·.2)) xs (s.members none) st ∧
      s'.members = (s.setMember none st).members := by
  induction xs generalizing s with
  | nil =>
    cases h
    exact ⟨_, .nil _, (Function.update_eq_self _ _).symm⟩
  | cons x xs ih =>
    obtain ⟨howner, hxs⟩ := forall_mem_cons.mp hxs
    obtain ⟨_, s₁, hfirst, hrest⟩ := bind_eq_ok_iff.mp h
    obtain ⟨st₁, hhands, hmembers₁⟩ := handOver_eq_ok howner hfirst
    obtain ⟨st, halong, hmembers⟩ := ih hxs hrest
    rw [hmembers₁] at halong
    exact ⟨st, .cons hhands halong, hmembers.trans (members_setMember_setMember hmembers₁ st)⟩

theorem exists_forM_handOver
    (h : Along (Hands g fun x => (parts x).flatMap (·.2)) xs (s.members none) st) (instant : Int) :
    ∃ s', (forM xs fun x => g.handOver instant x (parts x)) s = .ok () s' ∧
      s'.members = (s.setMember none st).members := by
  induction xs generalizing s with
  | nil =>
    rw [along_nil_iff.mp h]
    exact ⟨s, rfl, (Function.update_eq_self _ _).symm⟩
  | cons x xs ih =>
    obtain ⟨st₁, hhands, hrest⟩ := along_cons_iff.mp h
    obtain ⟨s₁, hfirst, hmembers₁⟩ := hhands.exists_handOver instant
    rw [← s.setMember_self none st₁, ← hmembers₁] at hrest
    obtain ⟨s', hs', hmembers⟩ := ih hrest
    exact ⟨s', (bind_of_ok hfirst _).trans hs',
      hmembers.trans (members_setMember_setMember hmembers₁ st)⟩

/-! ## The work of one instant -/

variable [DecidableEq T] {work work' : List (Pending (Option J) T)}

/-- The payloads a terminal is owed, in their order. -/
def payloadsTo (x : T) (work : List (Pending (Option J) T)) : List Fmi.Bytes :=
  (Group.partsTo x work).map (·.2)

theorem offer_eq (g : BusGroup J T τ δ) (instant : Int) (items : List (Pending (Option J) T)) :
    g.offer instant items = forM ((Group.combine items).map (·.1)) fun x =>
      g.handOver instant x (Group.partsTo x items) := by
  rw [Group.offer]
  conv_lhs => rw [Group.combine_eq items]
  rw [forM_map]

theorem partsTo_busWork_of_ne (howner : (g.transceiver x).owner ≠ none)
    (work : List (Pending (Option J) T)) : Group.partsTo x (g.busWork none work) = [] := by
  refine g.partsTo_of_owner fun item hitem heq => howner ?_
  rw [← heq]
  simpa using (mem_filter.mp hitem).2

/-- The work of nodes owes the CAN model nothing. -/
theorem partsTo_busWork (howner : (g.transceiver x).owner = none)
    (work : List (Pending (Option J) T)) :
    Group.partsTo x (g.busWork none work) = Group.partsTo x work := by
  refine Group.partsTo_filter fun item hitem => g.partsTo_of_owner ?_
  rintro _ heq
  simp_all

/-- What the CAN model is handed does not depend on the order of the work of
different terminals. -/
theorem Hosts.offer_congr (hg : Hosts g a name)
    (hsame : ∀ x, (g.transceiver x).owner = none → payloadsTo x work' = payloadsTo x work)
    (h : g.offer instant (g.busWork none work) s = .ok () s') :
    ∃ s'', g.offer instant (g.busWork none work') s = .ok () s'' ∧ s''.members = s'.members := by
  have hbus : ∀ x, payloadsTo x (g.busWork none work') = payloadsTo x (g.busWork none work) := by
    intro x
    by_cases howner : (g.transceiver x).owner = none
    · rw [payloadsTo, payloadsTo, partsTo_busWork howner, partsTo_busWork howner]
      exact hsame x howner
    · rw [payloadsTo, payloadsTo, partsTo_busWork_of_ne howner, partsTo_busWork_of_ne howner]
  have hpayload : (fun x => (Group.partsTo x (g.busWork none work')).flatMap (·.2)) =
      fun x => (Group.partsTo x (g.busWork none work)).flatMap (·.2) := by
    funext x
    exact congrArg flatten (hbus x)
  have hmem : ∀ {w : List (Pending (Option J) T)} {x : T},
      x ∈ (Group.combine (g.busWork none w)).map (·.1) ↔ payloadsTo x (g.busWork none w) ≠ [] := by
    intro w x
    rw [Group.mem_keys_combine, payloadsTo, Ne, Ne, map_eq_nil_iff]
  have hperm : ((Group.combine (g.busWork none work)).map (·.1)).Perm
      ((Group.combine (g.busWork none work')).map (·.1)) := by
    refine (perm_ext_iff_of_nodup (Group.buffers_combine _).nodup
      (Group.buffers_combine _).nodup).mpr fun x => ?_
    rw [hmem, hmem, hbus]
  have howners : ∀ x ∈ (Group.combine (g.busWork none work)).map (·.1),
      (g.transceiver x).owner = none := by
    intro x hx
    by_contra howner
    exact (Group.mem_keys_combine x _).mp hx (partsTo_busWork_of_ne howner work)
  rw [offer_eq] at h ⊢
  obtain ⟨st, halong, hmembers⟩ := forM_handOver_eq_ok howners h
  have halong' := halong.perm_steps (fun x y => hg.hands_commutes _) hperm
  rw [← hpayload] at halong'
  obtain ⟨s'', hs'', hmembers''⟩ := exists_forM_handOver halong' instant
  exact ⟨s'', hs'', hmembers''.trans hmembers.symm⟩

/-- After the same payloads, the event of the CAN model is the same. -/
theorem Hosts.serveBus_congr (hg : Hosts g a name)
    (hsame : ∀ x, (g.transceiver x).owner = none → payloadsTo x work' = payloadsTo x work)
    (hboth : g.busWork none work' = [] ↔ g.busWork none work = [])
    {last : List (Option J × List (T × Fmi.Bytes))}
    (h : g.serveBus instant none (g.busWork none work) s = .ok last s') :
    ∃ s'', g.serveBus instant none (g.busWork none work') s = .ok last s'' ∧
      s''.members = s'.members := by
  rw [Group.serveBus] at h ⊢
  by_cases hnone : g.busWork none work = []
  · rw [if_pos hnone] at h
    rw [if_pos (hboth.mpr hnone)]
    exact ⟨s', h, rfl⟩
  · rw [if_neg hnone] at h
    rw [if_neg (mt hboth.mp hnone)]
    obtain ⟨_, s₁, hoffer, h⟩ := bind_eq_ok_iff.mp h
    obtain ⟨produced, s₂, hhandle, h⟩ := bind_eq_ok_iff.mp h
    obtain ⟨t₁, hoffer', hmembers₁⟩ := hg.offer_congr hsame hoffer
    obtain ⟨t₂, hhandle', hmembers₂⟩ := Group.handle_of_members hmembers₁ hhandle
    cases h
    exact ⟨t₂, (bind_of_ok hoffer' _).trans (bind_of_ok hhandle' _), hmembers₂⟩

/-- The work of one instant is served once, node by node in its order and then
the CAN model in one event, before which each of its terminals is handed one
payload, made of what it is owed in the order of the work.  Work with the same
items of nodes and the same payloads for each terminal of the CAN model
therefore leads to the same evaluation of the bus and the same outputs. -/
theorem serve_arbitrates (hg : Hosts g a name)
    (hbus : ∀ i, (g.member i).busSimulation = true ↔ i = none) (instant : Int)
    (work : List (Pending (Option J) T)) :
    (g.nodeWork none work ++ g.busWork none work).Perm work ∧
    g.serve instant work.length work = (do
      let nodes ← (g.nodeWork none work).mapM (g.serveNode instant)
      let last ← g.serveBus instant none (g.busWork none work)
      pure (nodes ++ last)) ∧
    (∃ terminals : List T, terminals.Nodup ∧
      (∀ x, x ∈ terminals ↔ (g.transceiver x).owner = none ∧ Group.partsTo x work ≠ []) ∧
      g.offer instant (g.busWork none work) = forM terminals fun x =>
        g.handOver instant x (Group.partsTo x work)) ∧
    ∀ work', g.nodeWork none work' = g.nodeWork none work →
      (∀ x, (g.transceiver x).owner = none → payloadsTo x work' = payloadsTo x work) →
      (∀ s s', g.offer instant (g.busWork none work) s = .ok () s' →
        ∃ s'', g.offer instant (g.busWork none work') s = .ok () s'' ∧ s''.members = s'.members ∧
          Adapter.evaluate (s''.members none).fmu = Adapter.evaluate (s'.members none).fmu) ∧
      ((g.busWork none work' = [] ↔ g.busWork none work = []) →
        ∀ s served s', g.serve instant work.length work s = .ok served s' →
          ∃ s'', g.serve instant work'.length work' s = .ok served s'' ∧
            s''.members = s'.members) := by
  have howner : ∀ {x}, Group.partsTo x (g.busWork none work) ≠ [] ↔
      (g.transceiver x).owner = none ∧ Group.partsTo x work ≠ [] := by
    intro x
    by_cases h : (g.transceiver x).owner = none
    · simp [h, partsTo_busWork h]
    · simp [h, partsTo_busWork_of_ne h]
  refine ⟨?_, Group.serve_eq hbus instant le_rfl, ⟨(Group.combine (g.busWork none work)).map (·.1),
    (Group.buffers_combine _).nodup, ?_, ?_⟩, ?_⟩
  · refine perm_append_comm.trans ?_
    simpa [Group.nodeWork, Group.busWork] using
      filter_append_perm (fun item => decide (g.owner item = none)) work
  · intro x
    rw [Group.mem_keys_combine, howner]
  · rw [offer_eq]
    refine forM_congr fun x hx => ?_
    rw [partsTo_busWork (howner.mp ((Group.mem_keys_combine x _).mp hx)).1]
  · intro work' hnodes hsame
    refine ⟨?_, ?_⟩
    · intro s s' h
      obtain ⟨s'', hs'', hmembers⟩ := hg.offer_congr hsame h
      exact ⟨s'', hs'', hmembers, by rw [hmembers]⟩
    · intro hboth s served s' h
      rw [Group.serve_eq hbus instant le_rfl] at h ⊢
      obtain ⟨nodes, s₁, hfirst, h⟩ := bind_eq_ok_iff.mp h
      obtain ⟨last, s₂, hlast, h⟩ := bind_eq_ok_iff.mp h
      cases h
      obtain ⟨s'', hlast', hmembers⟩ := hg.serveBus_congr hsame hboth hlast
      rw [hnodes]
      exact ⟨s'', (bind_of_ok hfirst _).trans (bind_of_ok hlast' _), hmembers⟩

/-- Both terminals of a bus of two nodes are owed a payload, the first one in two
parts. -/
def pairWork (payload : Fmi.Bytes) : List (Pending (Option Terminal) (Bool × Terminal)) :=
  [.activation (true, 0) (payload.take 13) none, .event (some 0),
    .activation (true, 1) payload none, .activation (true, 0) (payload.drop 13) none]

/-- The same work, with the terminals of the bus the other way round. -/
def pairWorkSwapped (payload : Fmi.Bytes) : List (Pending (Option Terminal) (Bool × Terminal)) :=
  [.activation (true, 1) payload none, .activation (true, 0) (payload.take 13) none,
    .activation (true, 0) (payload.drop 13) none, .event (some 0)]

theorem serve_arbitrates_pair : ∃ served s' s'',
      (pairGroup (Bus.faultyInputs 0) [0, 1] (by decide)).serve 0 4 (pairWork (Bus.faultyInputs 0))
        (pairStart [0, 1] (by decide) pairBus).group = .ok served s' ∧
      (pairGroup (Bus.faultyInputs 0) [0, 1] (by decide)).serve 0 4
        (pairWorkSwapped (Bus.faultyInputs 0)) (pairStart [0, 1] (by decide) pairBus).group =
          .ok served s'' ∧ s''.members = s'.members := by
  obtain ⟨served, s', hserve⟩ := exists_of_returns
    (show returns ((pairGroup (Bus.faultyInputs 0) [0, 1] (by decide)).serve 0 4
      (pairWork (Bus.faultyInputs 0)) (pairStart [0, 1] (by decide) pairBus).group) = true by
        decide +kernel)
  have hbus : ∀ i, ((pairGroup (Bus.faultyInputs 0) [0, 1] (by decide)).member i).busSimulation =
      true ↔ i = none := by
    intro i
    cases i with
    | none => simp [pairGroup, Attachment.member]
    | some n => simp [pairGroup]
  have hsame : ∀ x, payloadsTo x (pairWorkSwapped (Bus.faultyInputs 0)) =
      payloadsTo x (pairWork (Bus.faultyInputs 0)) := by
    intro x
    by_cases h₀ : (true, 0) = x
    · subst h₀
      rfl
    · by_cases h₁ : (true, 1) = x
      · subst h₁
        rfl
      · simp [payloadsTo, Group.partsTo, pairWork, pairWorkSwapped, filterMap_cons, Group.part,
          h₀, h₁]
  obtain ⟨s'', hserve', hmembers⟩ := ((serve_arbitrates (pairGroup_hosts _ _ _) hbus 0
    (pairWork (Bus.faultyInputs 0))).2.2.2 (pairWorkSwapped (Bus.faultyInputs 0)) (by decide)
      fun x _ => hsame x).2 (by decide) _ _ _ hserve
  exact ⟨served, s', s'', hserve, hserve', hmembers⟩

end SilFormal.Can
