import SilFormal.Can.Importer

/-!
# One event of the CAN model

`Instance.handle` raises the Clocks that are due, reads what they gate, updates
the discrete states and reads the intervals again.  The event is open until
the first reading evaluates it; from then on every terminal reports what the
importer needs to know the next event of the bus.
-/

namespace SilFormal.Can

open Fmi List

variable {T : Type} {tx : Terminal → Bool}

/-- The Clocks that are due are up, and the event is not evaluated yet. -/
structure Opened (c : Configuration) (a : Attachment T) (now : Int)
    (st : Instance.State T Adapter) : Prop where
  raised : Adapter.Raised (a.Full c) c now st.fmu
  notEvaluated : st.fmu.event.evaluated = false
  mode_eq : st.fmu.mode = .event
  inEvent : st.inEvent = true
  received : ∀ n, st.fmu.event.rx n = true → ∃ x ∈ a.terminals, a.node x = n ∧ a.Active st x
  interval_eq : ∀ x ∈ a.terminals, st.fmu.interval (a.node x) =
    if a.Active st x ∧ st.fmu.bus.nextEvent.isSome = true then .unchanged else .notYetKnown
  /-- A buffer whose Clock is up is being taken. -/
  due_eq : ∀ x ∈ a.terminals,
    (st.buffers x).dueNs = (if a.Active st x then st.fmu.bus.nextEvent else none) ∨
      st.fmu.bus.nextEvent = some now
  driven : st.fmu.bus.nextEvent ≠ none → ∃ x ∈ a.terminals, a.Active st x

/-- The event is evaluated, and its states are not updated yet. -/
structure Evaluated (c : Configuration) (a : Attachment T) (now : Int)
    (st : Instance.State T Adapter) : Prop where
  loop : EventLoop c .received now st.fmu.bus
  time_eq : st.fmu.time = now
  evaluated : st.fmu.event.evaluated = true
  mode_eq : st.fmu.mode = .event
  inEvent : st.inEvent = true
  reports : ∀ x ∈ a.terminals, Reports a st x
  driven : st.fmu.bus.nextEvent ≠ none → ∃ x ∈ a.terminals, a.Active st x

/-- The states are updated, and the intervals of some terminals are still to be
read. -/
structure Updated (c : Configuration) (a : Attachment T) (now : Int) (left : List T)
    (st : Instance.State T Adapter) : Prop where
  loop : EventLoop c .waiting now st.fmu.bus
  ahead : ∀ due ∈ st.fmu.bus.nextEvent, now < due
  time_eq : st.fmu.time = now
  event_eq : st.fmu.event = {}
  mode_eq : st.fmu.mode = .event
  inEvent : st.inEvent = true
  knows : ∀ x ∈ a.terminals, x ∉ left → Knows a st x
  reports : ∀ x ∈ a.terminals, x ∈ left → Reports a st x
  driven : st.fmu.bus.nextEvent ≠ none → ∃ x ∈ a.terminals, a.Active st x

variable {c : Configuration} (a : Attachment T) (name : String) {now : Int}
  {st : Instance.State T Adapter}

/-! ## Raising the Clocks -/

variable {x : T}

/-- The terminals whose Clocks are due. -/
def Attachment.dueTerminals (a : Attachment T) (st : Instance.State T Adapter) (now : Int) :
    List T :=
  a.terminals.filter fun x => (st.buffers x).dueNs = some now

theorem dueBuffers_eq (st : Instance.State T Adapter) (now : Int) :
    (a.member name).dueBuffers st now = (a.dueTerminals st now).map a.sendSide := by
  rw [Instance.dueBuffers, Attachment.member, filter_map]
  rfl

theorem mem_dueTerminals (h : Agrees c a now st) : x ∈ a.dueTerminals st now ↔
      x ∈ a.terminals ∧ a.Active st x ∧ st.fmu.bus.nextEvent = some now := by
  rw [Attachment.dueTerminals, mem_filter, decide_eq_true_iff]
  constructor
  · rintro ⟨hx, hdue⟩
    exact ⟨hx, (h.due_iff hx).mp hdue⟩
  · rintro ⟨hx, hdue⟩
    exact ⟨hx, (h.due_iff hx).mpr hdue⟩

theorem Agrees.isActive_iff {a : Attachment T} (h : Agrees c a now st) (n : Terminal) :
    st.fmu.bus.isActive n = true ↔ n.val < c.activeNodes := by
  rw [Bus.isActive, decide_eq_true_iff, h.loop.design.1]

/-- In a group that drives all active terminals, their Clocks are due when the
bus is. -/
theorem Agrees.raised_of_full {a : Attachment T} (h : Agrees c a now st) (hfull : a.Full c)
    (n : Terminal) :
    (∃ x ∈ a.dueTerminals st now, a.node x = n) ↔
      st.fmu.bus.isActive n = true ∧ st.fmu.bus.nextEvent = some now := by
  constructor
  · rintro ⟨x, hx, rfl⟩
    exact ((mem_dueTerminals a h).mp hx).2
  · rintro ⟨hn, hdue⟩
    obtain ⟨x, hx, rfl⟩ := hfull n ((h.isActive_iff n).mp hn)
    exact ⟨x, (mem_dueTerminals a h).mpr ⟨hx, hn, hdue⟩, rfl⟩

/-- These are the Clocks of all active terminals, or none. -/
theorem Agrees.together_of_full {a : Attachment T} (h : Agrees c a now st) (hfull : a.Full c)
    (htx : ∀ n, tx n = true ↔ ∃ x ∈ a.dueTerminals st now, a.node x = n) (n : Terminal) :
    tx n = (st.fmu.bus.isActive n && tx 0) := by
  have hraised := fun n => (htx n).trans (h.raised_of_full hfull n)
  rw [Bool.eq_iff_iff, Bool.and_eq_true, hraised, hraised]
  constructor
  · rintro ⟨hn, hdue⟩
    have hfirst : st.fmu.bus.isActive 0 = true := by
      rw [h.isActive_iff] at hn ⊢
      exact Nat.lt_of_le_of_lt (Nat.zero_le _) hn
    exact ⟨hn, hfirst, hdue⟩
  · rintro ⟨hn, _, hdue⟩
    exact ⟨hn, hdue⟩

/-- The flags of the countdown Clocks that make an event of an agreeing state
an open one. -/
theorem Agrees.opened {a : Attachment T} (h : Agrees c a now st) (hevent : st.inEvent = true)
    (htx : ∀ n, tx n = true ↔ ∃ x ∈ a.dueTerminals st now, a.node x = n) :
    Opened c a now { st with fmu := st.fmu.withTx tx } where
  raised := {
    loop := h.loop
    time_eq := h.time_eq
    due_of_tx := by
      intro n hn
      obtain ⟨x, hx, _⟩ := (htx n).mp hn
      exact ((mem_dueTerminals a h).mp hx).2.2
    tx_of_due := by
      intro hdue
      obtain ⟨x, hx, hactive⟩ := h.driven
        (by rw [show st.fmu.bus.nextEvent = some now from hdue]; simp)
      exact ⟨a.node x, (htx _).mpr ⟨x, (mem_dueTerminals a h).mpr ⟨hx, hactive, hdue⟩, rfl⟩⟩
    together := fun hfull n => h.together_of_full hfull htx n }
  notEvaluated := h.notEvaluated
  mode_eq := h.mode_eq.trans (if_pos hevent)
  inEvent := hevent
  received := h.received
  interval_eq := fun x hx => (h.knows x hx).interval_eq
  due_eq := fun x hx => .inl (h.knows x hx).due_eq
  driven := h.driven

theorem raiseClocks_spec (h : Agrees c a now st) (hevent : st.inEvent = true) :
    Wp ((a.member name).raiseClocks ((a.dueTerminals st now).map a.sendSide))
      (fun _ st' => Opened c a now st' ∧ st'.fmu.bus = st.fmu.bus)
      (fun f _ => HarmlessFailure (a.Full c) f) st := by
  rw [Instance.raiseClocks]
  split
  · rename_i hnil
    have hnone : a.dueTerminals st now = [] := map_eq_nil_iff.mp hnil
    have hopened : Opened c a now { st with fmu := st.fmu.withTx st.fmu.event.tx } :=
      h.opened hevent fun n => by simp [h.notRaised n, hnone]
    exact ⟨hopened, rfl⟩
  · have hclocks : ((a.dueTerminals st now).map a.sendSide).map (·.clock) =
        ((a.dueTerminals st now).map a.node).map fun n => reference n txClock := by
      rw [map_map, map_map]
      rfl
    rw [hclocks]
    refine call_of ((Adapter.setClock_tx_spec h.mode_ne_error _).post ?_)
    rintro _ _ ⟨_, rfl⟩
    refine ⟨h.opened hevent fun n => ?_, rfl⟩
    simp [h.notRaised n]

/-! ## Evaluating the event -/

/-- Once an event is evaluated, every terminal reports how the next event of
the bus moved. -/
theorem Opened.reports {a : Attachment T} (h : Opened c a now st) {next : Bus}
    (hloop : EventLoop c .received now next) (events : Nat) (hx : x ∈ a.terminals) :
    Reports a { st with fmu := { st.fmu.commit next with eventsAtInstant := events } } x ∧
      (st.fmu.bus.nextEvent = some now →
        (st.fmu.commit next).interval (a.node x) ≠ .unchanged) := by
  have hactive : next.isActive (a.node x) = st.fmu.bus.isActive (a.node x) :=
    Bus.isActive_congr (hloop.design.1.trans h.raised.loop.design.1.symm) _
  have hinterval := h.interval_eq x hx
  have hdue := h.due_eq x hx
  simp only [Reports, Attachment.Active, Adapter.commit, hactive,
    h.raised.time_eq] at hinterval hdue ⊢
  by_cases hon : st.fmu.bus.isActive (a.node x) = true
  · by_cases hmoved : next.nextEvent ≠ st.fmu.bus.nextEvent ∨ st.fmu.bus.nextEvent = some now
    · cases hafter : next.nextEvent with
      | none =>
        rw [hafter] at hmoved
        simp [hon, hmoved]
      | some due =>
        rw [hafter] at hmoved
        simp [hon, hmoved]
    · obtain ⟨hsame, hnotDue⟩ := not_or.mp hmoved
      have hsame : next.nextEvent = st.fmu.bus.nextEvent := not_not.mp hsame
      rw [if_neg (fun hboth => hmoved hboth.1), hinterval, hsame]
      refine ⟨?_, fun hdue => absurd hdue hnotDue⟩
      cases hbefore : st.fmu.bus.nextEvent with
      | none => simp [hon]
      | some due =>
        rcases hdue with hdue | hdue
        · simpa [hon, hbefore] using hdue
        · exact absurd hdue hnotDue
  · simp [hon, hinterval]

theorem Opened.evaluated {a : Attachment T} (h : Opened c a now st) : Wp Adapter.evaluate
      (fun _ i' => Evaluated c a now { st with fmu := i' } ∧
        (st.fmu.bus.nextEvent = some now → ∀ x ∈ a.terminals, i'.interval (a.node x) ≠ .unchanged))
      (fun e _ => Adapter.Harmless (a.Full c) e) st.fmu := by
  refine (Adapter.evaluate_spec h.raised h.notEvaluated).post ?_
  rintro _ _ ⟨next, hnext, rfl⟩
  obtain ⟨hloop, hrest⟩ := h.raised.evaluatedBus_ok hnext
  refine ⟨{ h with
    loop := hloop
    time_eq := h.raised.time_eq
    evaluated := rfl
    reports := fun x hx => (h.reports hloop _ hx).1
    driven := fun hne => ?_ }, fun hdue x hx => (h.reports hloop 0 hx).2 hdue⟩
  have hactive : ∀ y, next.isActive (a.node y) = st.fmu.bus.isActive (a.node y) := fun y =>
    Bus.isActive_congr (hloop.design.1.trans h.raised.loop.design.1.symm) _
  -- A bus at rest moves only by an input, and the input has a terminal.
  by_cases hbefore : st.fmu.bus.nextEvent = none
  · have hinput : ∃ n, st.fmu.event.rx n = true := by
      by_contra hnone
      refine hne (hrest (fun n => ?_) hbefore)
      simpa using fun hn => hnone ⟨n, hn⟩
    obtain ⟨n, hn⟩ := hinput
    obtain ⟨x, hx, _, hon⟩ := h.received n hn
    exact ⟨x, hx, (hactive x).trans hon⟩
  · obtain ⟨x, hx, hon⟩ := h.driven hbefore
    exact ⟨x, hx, (hactive x).trans hon⟩

/-! ## Updating the states -/

theorem Evaluated.updated {a : Attachment T} (h : Evaluated c a now st) :
    Updated c a now a.terminals { st with fmu := { st.fmu with
      bus := st.fmu.bus.clearOutputs, event := {} } } :=
  { h with
    loop := .clear h.loop
    ahead := h.loop.ahead
    event_eq := rfl
    knows := fun _ hx hnot => absurd hx hnot
    reports := fun x hx _ => h.reports x hx }

/-- The event of the CAN model needs one update. -/
theorem runEvent_spec (h : Opened c a now st ∨ Evaluated c a now st) :
    Wp ((a.member name).runEvent now) (fun _ st' => Updated c a now a.terminals st')
      (fun f _ => HarmlessFailure (a.Full c) f) st := by
  have hmode : st.fmu.mode = .event := h.elim (·.mode_eq) (·.mode_eq)
  have hevaluate : Wp Adapter.evaluate (fun _ i' => Evaluated c a now { st with fmu := i' })
      (fun e _ => Adapter.Harmless (a.Full c) e) st.fmu := by
    rcases h with h | h
    · exact h.evaluated.post fun _ _ hi' => hi'.1
    · exact Adapter.evaluate_of_evaluated h.evaluated h
  have hupdate := Adapter.updateDiscreteStates_spec hmode
    (P := fun i' => Updated c a now a.terminals { st with fmu := i' })
    (hevaluate.post fun _ _ hi' => hi'.updated)
  -- No Clock of the CAN model is triggered, so nothing else is collected.
  show Wp (Instance.iterate (a.member name) now (99 + 1)) _ _ st
  rw [Instance.iterate]
  have hactivations : (a.member name).activations = (pure [] : Instance.Drive T Adapter _ _) := rfl
  rw [hactivations, pure_bind, Wp.bind_iff]
  refine call_of (hupdate.post ?_)
  rintro states i' ⟨hterminate, hneed, hupdated⟩
  rw [if_neg (by simp [hterminate]), if_neg (by simp [hneed])]
  exact hupdated

theorem Updated.agrees {a : Attachment T} (h : Updated c a now [] st) : Agrees c a now st :=
  { h with
    mode_eq := by rw [h.mode_eq, if_pos h.inEvent]
    notEvaluated := by rw [h.event_eq]
    notRaised := fun n => by rw [h.event_eq]
    received := fun n hn => by
      rw [h.event_eq] at hn
      cases hn
    knows := fun x hx => h.knows x hx not_mem_nil }

/-! ## Reading an interval -/

/-- An interval stated in nanoseconds is exact. -/
theorem exactNs_nanoseconds {ε : Type} (clock : String) (counter : Nat) (qualifier : Int) :
    (exactNs clock { counter := counter, resolution := nsPerS, qualifier := qualifier } :
      Except (Failure ε) Int) = .ok counter := by
  have hscale : ((nsPerS : Nat) : Int) = Fmi.nsPerS := rfl
  have hpos : Fmi.nsPerS ≠ 0 := by decide
  have hresolution : nsPerS ≠ 0 := by decide
  simp only [exactNs, if_neg hresolution, hscale, Int.mul_emod_left, ne_eq, not_true_eq_false,
    if_false, Int.mul_ediv_cancel _ hpos]

/-- A report makes the buffer end at the next event of the bus. -/
theorem Reports.refreshed {a : Attachment T} (h : Reports a st x) (htime : st.fmu.time = now)
    (hahead : ∀ due ∈ st.fmu.bus.nextEvent, now < due) (clock : String) :
    ∃ b, ((st.buffers x).refreshed clock
        { counter := st.fmu.untilNextEvent.toNat, resolution := nsPerS
          qualifier := (st.fmu.interval (a.node x)).toInt } now :
        Except (Failure AdapterError) CountdownBuffer) = .ok b ∧
      b.dueNs = if a.Active st x then st.fmu.bus.nextEvent else none := by
  simp only [Reports] at h
  cases hinterval : st.fmu.interval (a.node x) with
  | notYetKnown =>
    rw [hinterval] at h
    refine ⟨{ intervalNs := none, dueNs := none }, rfl, ?_⟩
    by_cases hactive : a.Active st x
    · simp [h hactive]
    · simp [hactive]
  | changed =>
    rw [hinterval] at h
    obtain ⟨hactive, hsome⟩ := h
    obtain ⟨due, hdue⟩ := Option.isSome_iff_exists.mp hsome
    have hlt := hahead due hdue
    refine ⟨{ intervalNs := some (due - now), dueNs := some (now + (due - now)) }, ?_, ?_⟩
    · have hcounter : (st.fmu.untilNextEvent.toNat : Int) = due - now := by
        simp only [Adapter.untilNextEvent, hdue]
        omega
      simp only [CountdownBuffer.refreshed, exactNs_nanoseconds, hcounter]
      rfl
    · simp [hactive, hdue]
  | unchanged =>
    rw [hinterval] at h
    obtain ⟨hactive, hsome, hdue⟩ := h
    obtain ⟨due, hnext⟩ := Option.isSome_iff_exists.mp hsome
    refine ⟨st.buffers x, ?_, by rw [if_pos hactive, hdue]⟩
    rw [hnext] at hdue
    simp [CountdownBuffer.refreshed, Qualifier.toInt, hdue]

/-! ## Taking the outputs -/

variable [DecidableEq T] {left : List T}

/-- While the outputs of a due event are taken, no terminal reports an
unchanged interval. -/
def Taking (c : Configuration) (a : Attachment T) (now : Int) (st : Instance.State T Adapter) :
    Prop :=
  (Opened c a now st ∧ st.fmu.bus.nextEvent = some now) ∨
    (Evaluated c a now st ∧ ∀ x ∈ a.terminals, st.fmu.interval (a.node x) ≠ .unchanged)

theorem Taking.setBuffer {a : Attachment T} (h : Taking c a now st) (x : T) (b : CountdownBuffer) :
    Taking c a now (st.setBuffer x b) := by
  rcases h with ⟨h, hdue⟩ | ⟨h, hmoved⟩
  · exact .inl ⟨{ h with due_eq := fun _ _ => .inr hdue }, hdue⟩
  · refine .inr ⟨{ h with reports := fun y hy => ?_ }, hmoved⟩
    have hreport := h.reports y hy
    have hne := hmoved y hy
    simp only [Reports] at hreport ⊢
    cases hinterval : st.fmu.interval (a.node y) with
    | changed =>
      simpa [Instance.State.setBuffer, Attachment.Active, hinterval] using hreport
    | notYetKnown =>
      simpa [Instance.State.setBuffer, Attachment.Active, hinterval] using hreport
    | unchanged => exact absurd hinterval hne

theorem take_spec (h : Taking c a now st) (x : T) : Wp ((a.member name).take (a.sendSide x))
      (fun _ st' => Evaluated c a now st' ∧
        ∀ x ∈ a.terminals, st'.fmu.interval (a.node x) ≠ .unchanged)
      (fun f _ => HarmlessFailure (a.Full c) f) st := by
  have htaking := h.setBuffer x { st.buffers x with dueNs := none }
  have hmode : (st.setBuffer x { st.buffers x with dueNs := none }).fmu.mode = .event :=
    h.elim (·.1.mode_eq) (·.1.mode_eq)
  refine call_of (Adapter.getBinary_spec hmode (a.node x) ?_)
  rcases htaking with ⟨hopened, hdue⟩ | ⟨hevaluated, hmoved⟩
  · refine hopened.evaluated.post ?_
    rintro _ i' ⟨hevaluated, hmoved⟩
    exact ⟨hevaluated, hmoved hdue⟩
  · exact Adapter.evaluate_of_evaluated hevaluated.evaluated ⟨hevaluated, hmoved⟩

theorem takeEach_spec (h : Taking c a now st) (xs : List T) :
    Wp ((a.member name).takeEach (xs.map a.sendSide)) (fun _ st' => Taking c a now st')
      (fun f _ => HarmlessFailure (a.Full c) f) st := by
  induction xs generalizing st with
  | nil => exact h
  | cons x xs ih =>
    refine Wp.bind (take_spec a name h x) ?_
    intro _ st₁ hst₁
    rw [Wp.bind_iff]
    exact (ih (.inr hst₁)).post fun _ _ hst₂ => hst₂

/-! ## Reading the intervals -/

/-- The adapter after a reading at a terminal. -/
def readInterval (st : Instance.State T Adapter) (n : Terminal) : Instance.State T Adapter :=
  { st with fmu := { st.fmu with
    interval := Function.update st.fmu.interval n (st.fmu.interval n).read } }

theorem Updated.read {a : Attachment T} {b : CountdownBuffer} (h : Updated c a now (x :: left) st)
    (hx : x ∈ a.terminals) (hleft : x ∉ left)
    (hdue : b.dueNs = if a.Active st x then st.fmu.bus.nextEvent else none) :
    Updated c a now left ((readInterval st (a.node x)).setBuffer x b) := by
  -- Distinct terminals have distinct intervals and buffers.
  have hinterval : ∀ y ∈ a.terminals, y ≠ x →
      ((readInterval st (a.node x)).setBuffer x b).fmu.interval (a.node y) =
        st.fmu.interval (a.node y) := fun y hy hne =>
    Function.update_of_ne (fun heq => hne (inj_on_of_nodup_map a.nodup hy hx heq)) _ _
  have hbuffer : ∀ y, y ≠ x →
      ((readInterval st (a.node x)).setBuffer x b).buffers y = st.buffers y := fun y hne =>
    Function.update_of_ne hne _ _
  refine { h with
    knows := fun y hy hnot => ?_
    reports := fun y hy hmem => ?_ }
  · by_cases hyx : y = x
    · subst hyx
      refine ⟨?_, ?_⟩
      · rw [show ((readInterval st (a.node y)).setBuffer y b).buffers y = b from
          Function.update_self _ _ _]
        exact hdue
      · have hreport := h.reports y hx mem_cons_self
        rw [show ((readInterval st (a.node y)).setBuffer y b).fmu.interval (a.node y) =
          (st.fmu.interval (a.node y)).read from Function.update_self _ _ _]
        show (st.fmu.interval (a.node y)).read =
          if a.Active st y ∧ st.fmu.bus.nextEvent.isSome = true then .unchanged else .notYetKnown
        simp only [Reports] at hreport
        cases hinterval : st.fmu.interval (a.node y) with
        | changed =>
          rw [hinterval] at hreport
          rw [if_pos hreport]
          rfl
        | unchanged =>
          rw [hinterval] at hreport
          rw [if_pos ⟨hreport.1, hreport.2.1⟩]
          rfl
        | notYetKnown =>
          rw [hinterval] at hreport
          rw [if_neg]
          · rfl
          · rintro ⟨hactive, hsome⟩
            simp [hreport hactive] at hsome
    · exact (h.knows y hy (by simp [hyx, hnot])).congr rfl (hinterval y hy hyx) (hbuffer y hyx)
  · have hyx : y ≠ x := fun heq => hleft (heq ▸ hmem)
    exact (h.reports y hy (mem_cons_of_mem _ hmem)).congr rfl (hinterval y hy hyx)
      (hbuffer y hyx)

theorem refresh_spec (h : Updated c a now (x :: left) st) (hx : x ∈ a.terminals)
    (hleft : x ∉ left) :
    Wp ((a.member name).refresh now (a.sendSide x)) (fun _ st' => Updated c a now left st')
      (fun f _ => HarmlessFailure (a.Full c) f) st := by
  have hreport := h.reports x hx mem_cons_self
  obtain ⟨b, hb, hdue⟩ := hreport.refreshed h.time_eq h.ahead (a.clockName x)
  rw [Instance.refresh, Wp.bind_iff]
  refine call_of ((Adapter.getIntervalFraction_spec h.mode_eq (a.node x)).post ?_)
  rintro answer _ ⟨rfl, rfl⟩
  rw [Wp.bind_iff]
  refine Wp.bind ((check_spec _ _).mono (fun _ _ hr => hr) ?_) ?_
  · rintro f _ ⟨hf, _⟩
    exact absurd (hb.symm.trans hf) (by simp)
  · rintro b' _ ⟨hb', rfl⟩
    obtain rfl : b = b' := by simpa using hb.symm.trans hb'
    exact h.read hx hleft hdue

/-- Reading the intervals of all terminals, by induction on those that are
left. -/
theorem refreshEach_spec (h : Updated c a now left st) (hmem : ∀ x ∈ left, x ∈ a.terminals)
    (hnodup : left.Nodup) :
    Wp (forM (left.map a.sendSide) ((a.member name).refresh now))
      (fun _ st' => Updated c a now [] st') (fun f _ => HarmlessFailure (a.Full c) f) st := by
  induction left generalizing st with
  | nil => exact h
  | cons x left ih =>
    obtain ⟨hx, hleft⟩ := nodup_cons.mp hnodup
    refine Wp.bind (refresh_spec a name h (hmem x mem_cons_self) hx) ?_
    intro _ st₁ hst₁
    exact ih hst₁ (fun y hy => hmem y (mem_cons_of_mem _ hy)) hleft

/-! ## The whole event -/

/-- After an event the importer knows the next event of the bus, and it is
ahead. -/
theorem handle_spec (h : Agrees c a now st) : Wp ((a.member name).handle now)
      (fun _ st' => Agrees c a now st' ∧ ∀ due ∈ st'.fmu.bus.nextEvent, now < due)
      (fun f _ => HarmlessFailure (a.Full c) f) st := by
  refine Wp.bind (enterEvent_spec a name h) ?_
  rintro _ st₁ ⟨h₁, hevent, _, _⟩
  rw [Wp.bind_iff, Wp.modify_iff, Wp.bind_iff, Wp.get_iff]
  have h₂ : Agrees c a now { st₁ with eventPending := false } :=
    h₁.congr h₁.mode_eq rfl rfl rfl rfl rfl
  rw [dueBuffers_eq]
  refine Wp.bind (raiseClocks_spec a name h₂ hevent) ?_
  rintro _ st₃ ⟨h₃, hbus⟩
  -- Outputs are taken only if the bus is due.
  have htaken : Wp ((a.member name).takeEach
      ((a.dueTerminals { st₁ with eventPending := false } now).map a.sendSide))
      (fun _ st' => Opened c a now st' ∨ Evaluated c a now st')
      (fun f _ => HarmlessFailure (a.Full c) f) st₃ := by
    cases hdue : a.dueTerminals { st₁ with eventPending := false } now with
    | nil => exact .inl h₃
    | cons x xs =>
      have hx : x ∈ a.dueTerminals { st₁ with eventPending := false } now := by simp [hdue]
      have hnext := ((mem_dueTerminals a h₂).mp hx).2.2
      refine (takeEach_spec a name (.inl ⟨h₃, hbus ▸ hnext⟩) (x :: xs)).post ?_
      rintro _ st' (⟨hopened, _⟩ | ⟨hevaluated, _⟩)
      · exact .inl hopened
      · exact .inr hevaluated
  refine Wp.bind htaken ?_
  intro taken st₄ h₄
  refine Wp.bind (runEvent_spec a name h₄) ?_
  rintro ⟨collected, states⟩ st₅ h₅
  rw [Wp.bind_iff]
  have h₆ : Updated c a now a.terminals { st₅ with nextEventTime := states.nextEventTime } :=
    { h₅ with
      knows := fun x hx hnot => (h₅.knows x hx hnot).congr rfl rfl rfl
      reports := fun x hx hmem => (h₅.reports x hx hmem).congr rfl rfl rfl }
  refine Wp.bind (refreshEach_spec a name h₆ (fun _ hx => hx) (List.Nodup.of_map _ a.nodup)) ?_
  intro _ st₇ h₇
  exact ⟨h₇.agrees, h₇.ahead⟩

end SilFormal.Can
