import SilFormal.Fmi.Settling
import SilFormal.Library.Fallible

/-!
# The coordination of a Step

A Step is covered by sub-intervals that every instance is stepped over.  None
of them passes an instant an instance asked for, whatever the FMUs answer:
the requests are read when the sub-interval is chosen, after everything that
could change them.  Every arrived Message is handed to its terminal once, at
the instant it states.
-/

namespace SilFormal.Fmi.Group

open Fallible List

variable {I T : Type} {σ ε : I → Type}

/-! ## Reading the history of a Step -/

/-- The communication points. -/
def points (events : List (Event I T σ)) : List Int :=
  events.filterMap fun e =>
    match e with
    | .point instant => some instant
    | _ => none

/-- The sub-intervals an instance was stepped over. -/
def intervals [DecidableEq I] (i : I) (events : List (Event I T σ)) : List (Int × Int) :=
  events.filterMap fun e =>
    match e with
    | .stepped j start stop _ => if j = i then some (start, stop) else none
    | _ => none

/-- Payloads are handed over, and events handled, at the point the group
stands on. -/
def Anchored : Option Int → List (Event I T σ) → Prop
  | _, [] => True
  | _, .point instant :: rest => Anchored (some instant) rest
  | standing, .stepped _ _ _ _ :: rest => Anchored standing rest
  | standing, .handed _ instant _ :: rest => standing = some instant ∧ Anchored standing rest
  | standing, .handled _ instant _ _ :: rest => standing = some instant ∧ Anchored standing rest

/-- The Messages that arrived for a terminal with an instant, in arrival
order. -/
def arrivedAt [DecidableEq T] (g : Group I T σ ε) (inputs : List Message) (y : T) (instant : Int) :
    List (Nat × Bytes) :=
  inputs.zipIdx.filterMap fun arrived =>
    if g.injections arrived.1.channel = some y ∧ arrived.1.eventTime = instant then
      some (arrived.2, arrived.1.payload.take arrived.1.length)
    else none

/-- What holds of the history of one Step. -/
structure Coordinated [DecidableEq I] [DecidableEq T] (g : Group I T σ ε) (x : Step)
    (events : List (Event I T σ)) : Prop where
  starts : (points events).head? = some x.t
  ends : (points events).getLast? = some (x.t + x.dt)
  increasing : (points events).Pairwise (· < ·)
  together : ∀ i ∈ g.instances, intervals i events = (points events).zip (points events).tail
  notAcross : ∀ i start stop before, .stepped i start stop before ∈ events →
    ∀ instant ∈ (g.member i).requested before, ¬ (start < instant ∧ instant < stop)
  handedOnce : ∀ y instant,
    fromMessages (handedParts y instant events) = g.arrivedAt x.inputs y instant
  anchored : Anchored none events

/-! ## Entries of settling and stepping -/

section Entries

variable {instant : Int} {events : List (Event I T σ)}

theorem points_of_atInstant (h : ∀ e ∈ events, AtInstant instant e) : points events = [] := by
  rw [points, filterMap_eq_nil_iff]
  intro e he
  have hat := h e he
  cases e with
  | point j => exact hat.elim
  | stepped j start stop before => rfl
  | handed x j parts => rfl
  | handled j k before after => rfl

theorem intervals_of_atInstant [DecidableEq I] (i : I) (h : ∀ e ∈ events, AtInstant instant e) :
    intervals i events = [] := by
  rw [intervals, filterMap_eq_nil_iff]
  intro e he
  have hat := h e he
  cases e with
  | point j => rfl
  | stepped j start stop before => exact hat.elim
  | handed x j parts => rfl
  | handled j k before after => rfl

theorem anchored_append_of_atInstant (h : ∀ e ∈ events, AtInstant instant e)
    (rest : List (Event I T σ)) :
    Anchored (some instant) (events ++ rest) ↔ Anchored (some instant) rest := by
  induction events with
  | nil => rfl
  | cons e events ih =>
    have hat := h e mem_cons_self
    have ih := ih fun e he => h e (mem_cons_of_mem _ he)
    cases e with
    | point j => exact hat.elim
    | stepped j start stop before => exact hat.elim
    | handed x j parts =>
      have hj : j = instant := hat
      rw [cons_append, Anchored, ih, hj]
      simp
    | handled j k before after =>
      have hk : k = instant := hat
      rw [cons_append, Anchored, ih, hk]
      simp

/-- The entries of one sub-interval. -/
def stepEntries (g : Group I T σ ε) (s : State I T σ) (start stop : Int) : List (Event I T σ) :=
  g.instances.map fun i => .stepped i start stop (s.members i)

variable (g : Group I T σ ε) (s : State I T σ) (start stop : Int)

theorem points_stepEntries : points (g.stepEntries s start stop) = [] := by
  simp [points, stepEntries]

theorem intervals_stepEntries [DecidableEq I] {i : I} (hi : i ∈ g.instances) :
    intervals i (g.stepEntries s start stop) = [(start, stop)] := by
  have hsplit : ∀ l : List I, l.Nodup →
      l.filterMap (fun j => if j = i then some (start, stop) else none) =
        if i ∈ l then [(start, stop)] else [] := by
    intro l
    induction l with
    | nil => intro _; rfl
    | cons j l ih =>
      intro hnodup
      obtain ⟨hj, hl⟩ := nodup_cons.mp hnodup
      by_cases hji : j = i
      · subst hji
        simp [ih hl, hj]
      · simp [ih hl, hji, Ne.symm hji]
  have hentries := hsplit g.instances g.nodup
  rw [if_pos hi] at hentries
  simpa [intervals, stepEntries] using hentries

theorem handedParts_stepEntries [DecidableEq T] (y : T) (instant : Int) :
    handedParts y instant (g.stepEntries s start stop) = [] := by
  simp [handedParts, stepEntries, handedBy]

theorem anchored_stepEntries (standing : Option Int) (rest : List (Event I T σ)) :
    Anchored standing (g.stepEntries s start stop ++ rest) ↔ Anchored standing rest := by
  rw [stepEntries]
  induction g.instances with
  | nil => rfl
  | cons i is ih =>
    exact ih

theorem steps_spec [DecidableEq I] (start stop : Int) (s : State I T σ) :
    Wp (forM g.instances (g.step start stop))
      (fun _ s' => s'.history = s.history ++ g.stepEntries s start stop) (fun _ _ => True) s := by
  refine (Wp.for_each
    (I := fun (done : List I) (s' : State I T σ) =>
      s'.history = s.history ++ done.map (fun i => .stepped i start stop (s.members i)) ∧
        ∀ i, i ∉ done → s'.members i = s.members i) ?_ ?_).post fun _ _ h => h.1
  · rintro done i rest s' hsplit ⟨hhistory, hmembers⟩
    have hi : i ∉ done := by
      intro hmem
      have hnodup := g.nodup
      rw [hsplit, nodup_append] at hnodup
      exact hnodup.2.2 i hmem i mem_cons_self rfl
    rw [step, Wp.bind_iff, Wp.get_iff, Wp.bind_iff, onMember, Wp.zoom_iff]
    refine Wp.intro (fun _ st _ => ?_) fun _ _ _ => trivial
    refine ⟨?_, fun j hj => ?_⟩
    · simp [State.setMember, hhistory, hmembers i hi]
    · rw [mem_append, not_or, mem_singleton] at hj
      simp [State.setMember, Function.update_of_ne hj.2, hmembers j hj.1]
  · exact ⟨by simp, fun _ _ => rfl⟩

end Entries

/-! ## The next boundary -/

section Boundary

variable (g : Group I T σ ε) (s : State I T σ) {now stop : Int}
  (injected : List (Int × Pending I T))

/-- The instants the next boundary is the first of. -/
def stops (now stop : Int) : List Int :=
  (g.instances.flatMap fun i => ((g.member i).askedFor (s.members i) now).filter (· ≤ stop)) ++
    (injected.map (·.1)).filter (now < ·)

theorem lt_of_mem_stops {instant : Int} (h : instant ∈ g.stops s injected now stop) :
    now < instant := by
  rcases mem_append.mp h with hasked | howed
  · obtain ⟨i, _, hi⟩ := mem_flatMap.mp hasked
    have hafter := (mem_filter.mp (mem_filter.mp hi).1).2
    simpa using hafter
  · simpa using (mem_filter.mp howed).2

/-- The boundary is one of its instants and before the others, or the end. -/
theorem boundary_cases : (g.boundary s now stop injected ∈ g.stops s injected now stop ∧
      ∀ instant ∈ g.stops s injected now stop, g.boundary s now stop injected ≤ instant) ∨
    (g.boundary s now stop injected = stop ∧ g.stops s injected now stop = []) := by
  have hboundary : g.boundary s now stop injected =
      (g.stops s injected now stop).min?.getD stop := rfl
  rw [hboundary]
  cases hmin : (g.stops s injected now stop).min? with
  | none => exact .inr ⟨rfl, min?_eq_none_iff.mp hmin⟩
  | some first =>
    obtain ⟨hmem, hle⟩ := min?_eq_some_iff.mp hmin
    exact .inl ⟨hmem, hle⟩

theorem lt_boundary (hnow : now < stop) : now < g.boundary s now stop injected := by
  rcases g.boundary_cases s injected with ⟨hmem, _⟩ | ⟨heq, _⟩
  · exact g.lt_of_mem_stops s injected hmem
  · rw [heq]
    exact hnow

variable {injected}

theorem boundary_le_stop (hinjected : ∀ owed ∈ injected, owed.1 ≤ stop) :
    g.boundary s now stop injected ≤ stop := by
  rcases g.boundary_cases s injected with ⟨hmem, _⟩ | ⟨heq, _⟩
  · rcases mem_append.mp hmem with hasked | howed
    · obtain ⟨i, _, hi⟩ := mem_flatMap.mp hasked
      simpa using (mem_filter.mp hi).2
    · obtain ⟨owed, howed, heq⟩ := mem_map.mp (mem_filter.mp howed).1
      rw [← heq]
      exact hinjected owed howed
  · exact heq.le

theorem boundary_le_of_mem_stops {instant : Int} (h : instant ∈ g.stops s injected now stop) :
    g.boundary s now stop injected ≤ instant := by
  rcases g.boundary_cases s injected with ⟨_, hle⟩ | ⟨_, hnil⟩
  · exact hle instant h
  · rw [hnil] at h
    cases h

/-- No instance is asked to pass an instant it asked for. -/
theorem boundary_le_requested (hinjected : ∀ owed ∈ injected, owed.1 ≤ stop) {i : I}
    (hi : i ∈ g.instances) {instant : Int}
    (hrequested : instant ∈ (g.member i).requested (s.members i)) (hnow : now < instant) :
    g.boundary s now stop injected ≤ instant := by
  by_cases hstop : instant ≤ stop
  · refine g.boundary_le_of_mem_stops s (mem_append_left _ (mem_flatMap.mpr ⟨i, hi, ?_⟩))
    simp [Instance.askedFor, hrequested, hnow, hstop]
  · exact (g.boundary_le_stop s hinjected).trans (not_le.mp hstop).le

/-- No Message is passed. -/
theorem boundary_le_owed {owed : Int × Pending I T} (howed : owed ∈ injected)
    (hnow : now < owed.1) : g.boundary s now stop injected ≤ owed.1 := by
  refine g.boundary_le_of_mem_stops s (mem_append_right _ ?_)
  simpa [hnow] using ⟨owed.2, howed⟩

end Boundary

/-! ## The arrived Messages -/

section Arrived

variable (g : Group I T σ ε)

theorem inject_eq_ok {start stop : Int} {arrived : Message × Nat} {owed : Int × Pending I T}
    (h : g.inject start stop arrived = .ok owed) :
    ∃ x, g.injections arrived.1.channel = some x ∧
      start ≤ arrived.1.eventTime ∧ arrived.1.eventTime ≤ stop ∧
      owed = (arrived.1.eventTime,
        .activation x (arrived.1.payload.take arrived.1.length) (some arrived.2)) := by
  rw [inject] at h
  split at h
  · cases h
  · rename_i x j hfound
    obtain ⟨y, hy, hinjection⟩ := Option.bind_eq_some_iff.mp hfound
    obtain ⟨_, _, heq⟩ := Option.map_eq_some_iff.mp hinjection
    obtain ⟨rfl, rfl⟩ := Prod.mk.inj heq
    split at h
    · rename_i hreach
      obtain ⟨payload, hpayload, howed⟩ := bind_eq_ok.mp h
      cases howed
      rw [Injection.payload] at hpayload
      split at hpayload
      · cases hpayload
      · cases hpayload
        exact ⟨y, hy, hreach.1, hreach.2, rfl⟩
    · cases h

/-- What is owed for Messages is owed at instants of the Step. -/
theorem mem_injected {inputs : List Message} {start stop : Int}
    {injected : List (Int × Pending I T)} (h : g.injected inputs start stop = .ok injected) :
    ∀ owed ∈ injected, start ≤ owed.1 ∧ owed.1 ≤ stop := by
  rw [Group.injected] at h
  generalize inputs.zipIdx = arrivals at h
  induction arrivals generalizing injected with
  | nil =>
    cases h
    simp
  | cons arrived arrivals ih =>
    rw [mapM_cons, bind_eq_ok] at h
    obtain ⟨owed, howed, h⟩ := h
    obtain ⟨rest, hrest, h⟩ := bind_eq_ok.mp h
    cases h
    obtain ⟨x, _, hstart, hstop, rfl⟩ := g.inject_eq_ok howed
    simpa using ⟨⟨hstart, hstop⟩, by simpa using ih hrest⟩

/-- What is owed to a terminal at an instant are the Messages that arrived for
it with that instant. -/
theorem owedTo_injected [DecidableEq T] {inputs : List Message} {start stop : Int}
    {injected : List (Int × Pending I T)} (h : g.injected inputs start stop = .ok injected) (y : T)
    (instant : Int) : owedTo y (owedAt injected instant) = g.arrivedAt inputs y instant := by
  rw [Group.injected] at h
  rw [arrivedAt]
  generalize inputs.zipIdx = arrivals at h
  induction arrivals generalizing injected with
  | nil =>
    cases h
    rfl
  | cons arrived arrivals ih =>
    rw [mapM_cons, bind_eq_ok] at h
    obtain ⟨owed, howed, h⟩ := h
    obtain ⟨rest, hrest, h⟩ := bind_eq_ok.mp h
    cases h
    obtain ⟨x, hx, _, _, rfl⟩ := g.inject_eq_ok howed
    rw [filterMap_cons, ← ih hrest, hx]
    by_cases hinstant : arrived.1.eventTime = instant
    · by_cases hxy : x = y
      · simp [owedAt, owedTo, partsTo, part, fromMessages, hinstant, hxy]
      · simp [owedAt, owedTo, partsTo, part, hinstant, hxy]
    · simp [owedAt, hinstant]

end Arrived

/-! ## The loop -/

variable [DecidableEq I] [DecidableEq T]

section Loop

variable (g : Group I T σ ε)

/-- What holds of the history of the loop, from where it starts. -/
structure Covered (now stop : Int) (injected : List (Int × Pending I T))
    (events : List (Event I T σ)) : Prop where
  ends : (now :: points events).getLast? = some stop
  increasing : (now :: points events).Pairwise (· < ·)
  together : ∀ i ∈ g.instances, intervals i events = (now :: points events).zip (points events)
  notAcross : ∀ i start stop before, .stepped i start stop before ∈ events →
    ∀ instant ∈ (g.member i).requested before, ¬ (start < instant ∧ instant < stop)
  handed : ∀ y instant,
    fromMessages (handedParts y instant events) = owedTo y (owedAt injected instant)
  anchored : Anchored (some now) events

/-- The loop after its end. -/
theorem covered_nil {stop : Int} {injected : List (Int × Pending I T)}
    (hinjected : ∀ owed ∈ injected, stop < owed.1 ∧ owed.1 ≤ stop) :
    g.Covered stop stop injected [] := by
  have hnil : injected = [] := by
    refine eq_nil_iff_forall_not_mem.mpr fun owed howed => ?_
    have hbounds := hinjected owed howed
    omega
  subst hnil
  exact {
    ends := rfl
    increasing := pairwise_singleton _ _
    together := fun _ _ => rfl
    notAcross := by simp
    handed := fun _ _ => rfl
    anchored := trivial }

omit [DecidableEq I] in
/-- What is owed at an instant is handed over when it is settled, the rest
later. -/
theorem handed_settled {y : T} {instant point : Int} {injected : List (Int × Pending I T)}
    {due : List I} {settled events : List (Event I T σ)}
    (hsettled : Settled point (owedAt injected point ++ due.map .event) settled)
    (hevents : fromMessages (handedParts y instant events) =
      owedTo y (owedAt (owedLater injected point) instant)) :
    fromMessages (handedParts y instant (.point point :: (settled ++ events))) =
      owedTo y (owedAt injected instant) := by
  have hcons : handedParts y instant (.point point :: (settled ++ events)) =
      handedParts y instant settled ++ handedParts y instant events :=
    handedParts_append y instant settled events
  rw [hcons, fromMessages_append, hevents]
  by_cases hinstant : instant = point
  · subst hinstant
    have hnone : owedAt (owedLater injected instant) instant = [] := by
      simp [owedAt, owedLater]
    rw [hsettled.handed y, owedTo_append, owedTo_events, hnone, append_nil]
    exact append_nil _
  · have hkeep : owedAt (owedLater injected point) instant = owedAt injected instant := by
      rw [owedAt, owedLater, filter_filter]
      congr 1
      refine filter_congr fun owed _ => ?_
      by_cases howed : owed.1 = instant
      · simp [howed, hinstant]
      · simp [howed]
    rw [handedParts_of_atInstant hsettled.atInstant y hinstant, hkeep]
    rfl

/-- One sub-interval and the instant it ends at, before a covered rest. -/
theorem Covered.cons {s : State I T σ} {now stop : Int} {injected : List (Int × Pending I T)}
    {due : List I} {settled events : List (Event I T σ)} (hnow : now < stop)
    (hinjected : ∀ owed ∈ injected, now < owed.1 ∧ owed.1 ≤ stop)
    (hsettled : Settled (g.boundary s now stop injected)
      (owedAt injected (g.boundary s now stop injected) ++ due.map .event) settled)
    (hevents : g.Covered (g.boundary s now stop injected) stop
      (owedLater injected (g.boundary s now stop injected)) events) :
    g.Covered now stop injected
      (g.stepEntries s now (g.boundary s now stop injected) ++
        .point (g.boundary s now stop injected) :: (settled ++ events)) := by
  have hlt := g.lt_boundary s injected hnow
  have hpoints : points (g.stepEntries s now (g.boundary s now stop injected) ++
      .point (g.boundary s now stop injected) :: (settled ++ events)) =
        g.boundary s now stop injected :: points events := by
    have hentries := g.points_stepEntries s now (g.boundary s now stop injected)
    have hnone := points_of_atInstant hsettled.atInstant
    simp only [points] at hentries hnone ⊢
    simp [hentries, hnone]
  refine {
    ends := ?_, increasing := ?_, together := ?_, notAcross := ?_, handed := ?_, anchored := ?_ }
  · rw [hpoints]
    exact hevents.ends
  · rw [hpoints, pairwise_cons]
    refine ⟨fun p hp => ?_, hevents.increasing⟩
    rcases mem_cons.mp hp with rfl | hp
    · exact hlt
    · exact hlt.trans ((pairwise_cons.mp hevents.increasing).1 p hp)
  · intro i hi
    rw [hpoints, zip_cons_cons, ← hevents.together i hi]
    have hentries := g.intervals_stepEntries s now (g.boundary s now stop injected) hi
    have hnone := intervals_of_atInstant i hsettled.atInstant
    simp only [intervals] at hentries hnone ⊢
    simp [hentries, hnone]
  · intro i start last before hmem instant hrequested hinside
    rcases mem_append.mp hmem with hstep | hrest
    · obtain ⟨j, hj, heq⟩ := mem_map.mp hstep
      cases heq
      have hle := g.boundary_le_requested s (fun owed howed => (hinjected owed howed).2) hj
        hrequested hinside.1
      omega
    · rcases mem_cons.mp hrest with heq | hrest
      · cases heq
      · rcases mem_append.mp hrest with hsettling | hlater
        · exact hsettled.atInstant _ hsettling
        · exact hevents.notAcross i start last before hlater instant hrequested hinside
  · intro y instant
    rw [handedParts_append, handedParts_stepEntries]
    exact handed_settled hsettled (hevents.handed y instant)
  · rw [anchored_stepEntries, Anchored, anchored_append_of_atInstant hsettled.atInstant]
    exact hevents.anchored

/-- The loop covers the rest of the Step.  By induction on the bound: every
sub-interval is at least one nanosecond long. -/
theorem advanceLoop_spec {now stop : Int} {left : Nat} {injected : List (Int × Pending I T)}
    (hnow : now ≤ stop) (hleft : stop ≤ now + left)
    (hinjected : ∀ owed ∈ injected, now < owed.1 ∧ owed.1 ≤ stop) (s : State I T σ) :
    Wp (g.advanceLoop stop left now injected)
      (fun _ s' => ∃ events, s'.history = s.history ++ events ∧ g.Covered now stop injected events)
      (fun _ _ => True) s := by
  induction left generalizing now injected s with
  | zero =>
    obtain rfl : now = stop := by omega
    exact ⟨[], by simp, g.covered_nil hinjected⟩
  | succ left ih =>
    rw [advanceLoop]
    split
    · rename_i hlt
      rw [Wp.bind_iff]
      have hboundary := g.lt_boundary s injected hlt
      have hlater : ∀ owed ∈ owedLater injected (g.boundary s now stop injected),
          g.boundary s now stop injected < owed.1 ∧ owed.1 ≤ stop := by
        intro owed howed
        obtain ⟨hmem, hne⟩ := mem_filter.mp howed
        have hle : g.boundary s now stop injected ≤ owed.1 :=
          g.boundary_le_owed s hmem (hinjected owed hmem).1
        have hne : owed.1 ≠ g.boundary s now stop injected := by simpa using hne
        exact ⟨by omega, (hinjected owed hmem).2⟩
      refine Wp.bind (g.steps_spec now _ s) ?_
      intro _ s₁ hs₁
      rw [Wp.bind_iff, note, Wp.modify_iff, Wp.bind_iff]
      refine Wp.bind (g.settle_spec _ _ _) ?_
      rintro published s₂ ⟨settled, hs₂, hsettled⟩
      refine Wp.bind (ih ?_ (by omega) hlater s₂) ?_
      · exact g.boundary_le_stop s fun owed howed => (hinjected owed howed).2
      · rintro later s₃ ⟨events, hs₃, hevents⟩
        refine ⟨_, ?_, Covered.cons g hlt hinjected hsettled hevents⟩
        simp [hs₃, hs₂, hs₁]
    · obtain rfl : now = stop := by omega
      exact ⟨[], by simp, g.covered_nil hinjected⟩

/-- Every bound that is large enough lets the loop end by itself. -/
theorem advanceLoop_eq {now stop : Int} {left right : Nat} (hleft : stop ≤ now + left)
    (hright : stop ≤ now + right) (injected : List (Int × Pending I T)) :
    g.advanceLoop stop left now injected = g.advanceLoop stop right now injected := by
  induction left generalizing now right injected with
  | zero =>
    cases right with
    | zero => rfl
    | succ right => rw [advanceLoop, advanceLoop, if_neg (by omega)]
  | succ left ih =>
    cases right with
    | zero => rw [advanceLoop, advanceLoop, if_neg (by omega)]
    | succ right =>
      rw [advanceLoop, advanceLoop]
      split
      · rename_i hlt
        refine bind_congr fun s => ?_
        have hboundary := g.lt_boundary s injected hlt
        have hrest : ∀ rest, g.advanceLoop stop left (g.boundary s now stop injected) rest =
            g.advanceLoop stop right (g.boundary s now stop injected) rest :=
          fun rest => ih (by omega) (by omega) rest
        simp only [hrest]
      · rfl

end Loop

/-! ## Steps -/

section Steps

variable (g : Group I T σ ε)

theorem advance_spec (x : Step) (s : State I T σ) : Wp (g.advance x.t x.dt x.inputs)
      (fun _ s' => ∃ events, s'.history = s.history ++ events ∧ g.Coordinated x events)
      (fun _ _ => True) s := by
  refine Wp.bind (check_spec _ s) ?_
  rintro injected _ ⟨hinjected, rfl⟩
  rw [Wp.bind_iff, note]
  refine Wp.bind (g.settle_spec _ _ _) ?_
  rintro published s₁ ⟨settled, hs₁, hsettled⟩
  have hlater : ∀ owed ∈ owedLater injected x.t, x.t < owed.1 ∧ owed.1 ≤ x.t + x.dt := by
    intro owed howed
    obtain ⟨hmem, hne⟩ := mem_filter.mp howed
    have hbounds := g.mem_injected hinjected owed hmem
    have hne : owed.1 ≠ x.t := by simpa using hne
    omega
  refine Wp.bind (g.advanceLoop_spec (by omega) (by omega) hlater s₁) ?_
  rintro later s₂ ⟨events, hs₂, hevents⟩
  refine ⟨.point x.t :: (settled ++ events), by simp [hs₂, hs₁], ?_⟩
  have hpoints : points (.point x.t :: (settled ++ events)) = x.t :: points events := by
    have hnone := points_of_atInstant hsettled.atInstant
    simp only [points] at hnone ⊢
    simp [hnone]
  refine {
    starts := by rw [hpoints]; rfl
    ends := by rw [hpoints]; exact hevents.ends
    increasing := by rw [hpoints]; exact hevents.increasing
    together := ?_
    notAcross := ?_
    handedOnce := ?_
    anchored := ?_ }
  · intro i hi
    rw [hpoints, tail_cons, ← hevents.together i hi]
    have hnone := intervals_of_atInstant i hsettled.atInstant
    simp only [intervals] at hnone ⊢
    simp [hnone]
  · intro i start stop before hmem instant hrequested hinside
    rcases mem_cons.mp hmem with heq | hmem
    · cases heq
    · rcases mem_append.mp hmem with hsettling | hloop
      · exact hsettled.atInstant _ hsettling
      · exact hevents.notAcross i start stop before hloop instant hrequested hinside
  · intro y instant
    rw [← g.owedTo_injected hinjected y instant]
    have hdue : Settled x.t (owedAt injected x.t ++ ([] : List I).map .event) settled := by
      simpa using hsettled
    exact handed_settled hdue (hevents.handed y instant)
  · rw [Anchored, anchored_append_of_atInstant hsettled.atInstant]
    exact hevents.anchored

theorem onStep_spec (x : Step) (p : Participant I T σ) : Wp (g.onStep x)
      (fun _ p' => ∃ events, p'.group.history = p.group.history ++ events ∧
        g.Coordinated x events) (fun _ _ => True) p := by
  rw [onStep, Wp.bind_iff, Wp.get_iff]
  split
  · rw [Wp.bind_iff, Wp.modify_iff, Wp.bind_iff, Wp.zoom_iff]
    refine (g.advance_spec x p.group).mono ?_ fun _ _ _ => trivial
    rintro published s' ⟨events, hs', hevents⟩
    exact ⟨events, hs', hevents⟩
  · trivial

/-- Whatever the FMUs do, every Step of a Run without a failure is covered by
strictly increasing communication points from its start to its end; all
instances are stepped over the same sub-intervals between them, none across an
instant it asked for; every arrived Message is handed to its terminal once, at
the instant it states and in arrival order; and the loop that does so ends by
itself. -/
theorem steps_coordinated (steps : List Step) {p p' : Participant I T σ}
    {published : List (List Message)} (h : g.run steps p = .ok published p') :
    (∃ segments : List (List (Event I T σ)),
      p'.group.history = p.group.history ++ segments.flatten ∧
        List.Forall₂ g.Coordinated steps segments) ∧
      ∀ x ∈ steps, ∀ bound, x.dt ≤ bound →
        g.advanceLoop (x.t + x.dt) bound x.t = g.advanceLoop (x.t + x.dt) x.dt x.t := by
  constructor
  · have hrun : Wp (g.run steps) (fun _ p' => ∃ segments : List (List (Event I T σ)),
        p'.group.history = p.group.history ++ segments.flatten ∧
          List.Forall₂ g.Coordinated steps segments) (fun _ _ => True) p := by
      clear h
      induction steps generalizing p with
      | nil => exact ⟨[], by simp, .nil⟩
      | cons x steps ih =>
        refine Wp.bind (g.onStep_spec x p) ?_
        rintro _ p₁ ⟨events, hp₁, hevents⟩
        refine Wp.bind ih ?_
        rintro _ p₂ ⟨segments, hp₂, hsegments⟩
        exact ⟨events :: segments, by simp [hp₂, hp₁], .cons hevents hsegments⟩
    exact hrun.of_ok h
  · intro x _ bound hbound
    funext injected
    exact g.advanceLoop_eq (by omega) (by omega) injected

end Steps

/-- An FMU that asks for its countdown Clock three nanoseconds after every
event. -/
def pulse : Fmu Unit Unit where
  enterEventMode := pure ()
  enterStepMode := pure ()
  doStep := fun _ _ => pure
    { eventNeeded := false, terminate := false, earlyReturn := false, lastSuccessfulTime := 0 }
  getClock := fun _ => pure false
  setClock := fun _ => pure ()
  getBinary := fun _ => pure [7]
  setBinary := fun _ _ => pure ()
  getIntervalFraction := fun _ => pure { counter := 3, resolution := 1000000000, qualifier := 2 }
  updateDiscreteStates := pure { needUpdate := false, terminate := false, nextEventTime := none }

/-- A group of one such FMU, with one terminal that a Channel is handed to. -/
def pulseGroup : Group Unit Unit (fun _ => Unit) (fun _ => Unit) where
  instances := [()]
  nodup := List.nodup_singleton _
  member := fun _ => {
    name := "pulse"
    busSimulation := true
    fmu := pulse
    triggered := []
    countdown := [{ transceiver := (), data := 1, clock := 0, clockName := "Tx_Clock" }] }
  transceiver := fun _ => {
    owner := ()
    name := "pulse.Node1"
    receiveClock := 2
    receiveData := 3
    receiveName := "Rx_Data"
    capacity := 2048
    peer := none
    observation := none
    injection := some {
      channel := "frames", binary := "Rx_Data", field := "payload", lengthField := "length",
      capacity := 8 } }
  transceivers := [()]

/-- Two Messages of one instant, then a Step without one. -/
def pulseSteps : List Step :=
  [{ t := 0, dt := 6, inputs := [
      { channel := "frames", payload := [1, 2], length := 1, eventTime := 2 },
      { channel := "frames", payload := [3, 4], length := 2, eventTime := 2 }] },
    { t := 6, dt := 4, inputs := [] }]

/-- The group before its first Step. -/
def pulseStart : Participant Unit Unit (fun _ => Unit) where
  group := {
    members := fun _ => {
      fmu := (), buffers := fun _ => .new, inEvent := false, eventPending := false,
      nextEventTime := none }
    history := [] }
  pendingActivations := []
  communicationPoint := 0

theorem steps_coordinated_pulse :
    ∃ published p', pulseGroup.run pulseSteps pulseStart = .ok published p' ∧
      (∃ segments : List (List (Event Unit Unit fun _ => Unit)),
        p'.group.history = pulseStart.group.history ++ segments.flatten ∧
          List.Forall₂ pulseGroup.Coordinated pulseSteps segments) ∧
      ∀ x ∈ pulseSteps, ∀ bound, x.dt ≤ bound → pulseGroup.advanceLoop (x.t + x.dt) bound x.t =
          pulseGroup.advanceLoop (x.t + x.dt) x.dt x.t := by
  obtain ⟨published, p', hrun⟩ :=
    exists_of_returns (show returns (pulseGroup.run pulseSteps pulseStart) = true by
      decide +kernel)
  exact ⟨published, p', hrun, pulseGroup.steps_coordinated pulseSteps hrun⟩

end SilFormal.Fmi.Group
