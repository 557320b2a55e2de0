import SilFormal.Fmi.Group

/-!
# What settling an instant does

The propagation at one instant hands every activation it was started with to
its terminal, those of one terminal in their order, and nothing else happens
in it than that terminals are handed payloads and instances handle events.
Neither the FMUs nor the bound on the propagation matter here.
-/

namespace SilFormal.Fmi.Group

open List

variable {I T α : Type} {σ ε : I → Type}

/-! ## Reading a history -/

/-- The parts that came with a Message, by its position among the arrived ones. -/
def fromMessages (parts : List (Option Nat × Bytes)) : List (Nat × Bytes) :=
  parts.filterMap fun p => p.1.map fun n => (n, p.2)

theorem fromMessages_append (l r : List (Option Nat × Bytes)) :
    fromMessages (l ++ r) = fromMessages l ++ fromMessages r :=
  filterMap_append

/-- The parts an entry hands to a terminal at an instant. -/
def handedBy [DecidableEq T] (y : T) (instant : Int) : Event I T σ → List (Option Nat × Bytes)
  | .handed x i parts => if x = y ∧ i = instant then parts else []
  | _ => []

/-- The parts handed to a terminal at an instant. -/
def handedParts [DecidableEq T] (y : T) (instant : Int) (events : List (Event I T σ)) :
    List (Option Nat × Bytes) :=
  events.flatMap (handedBy y instant)

@[simp]
theorem handedParts_append [DecidableEq T] (y : T) (instant : Int) (l r : List (Event I T σ)) :
    handedParts y instant (l ++ r) = handedParts y instant l ++ handedParts y instant r :=
  flatMap_append

/-- An entry made while an instant is settled. -/
def AtInstant (instant : Int) : Event I T σ → Prop
  | .point _ => False
  | .stepped _ _ _ _ => False
  | .handed _ i _ => i = instant
  | .handled _ i _ _ => i = instant

theorem handedParts_of_atInstant [DecidableEq T] {instant : Int} {events : List (Event I T σ)}
    (h : ∀ e ∈ events, AtInstant instant e) (y : T) {i : Int} (hi : i ≠ instant) :
    handedParts y i events = [] := by
  rw [handedParts, flatMap_eq_nil_iff]
  intro e he
  have hat := h e he
  cases e with
  | handed x j parts =>
    simp only [AtInstant] at hat
    simp [handedBy, hat, hi.symm]
  | point j => rfl
  | stepped j start stop before => rfl
  | handled j k before after => rfl

/-- The parts work owes a terminal. -/
def partsTo [DecidableEq T] (y : T) (work : List (Pending I T)) : List (Option Nat × Bytes) :=
  ((work.filterMap part).filter fun p => p.1 = y).map (·.2)

/-- The Messages work owes a terminal. -/
def owedTo [DecidableEq T] (y : T) (work : List (Pending I T)) : List (Nat × Bytes) :=
  fromMessages (partsTo y work)

@[simp]
theorem partsTo_nil [DecidableEq T] (y : T) : partsTo y ([] : List (Pending I T)) = [] :=
  rfl

@[simp]
theorem partsTo_append [DecidableEq T] (y : T) (l r : List (Pending I T)) :
    partsTo y (l ++ r) = partsTo y l ++ partsTo y r := by
  simp [partsTo]

theorem partsTo_cons [DecidableEq T] (y : T) (item : Pending I T) (l : List (Pending I T)) :
    partsTo y (item :: l) = partsTo y [item] ++ partsTo y l :=
  partsTo_append y [item] l

theorem owedTo_append [DecidableEq T] (y : T) (l r : List (Pending I T)) :
    owedTo y (l ++ r) = owedTo y l ++ owedTo y r := by
  rw [owedTo, partsTo_append, fromMessages_append]
  rfl

/-- Events without an activation owe no terminal a Message. -/
theorem owedTo_events [DecidableEq T] (y : T) (is : List I) :
    owedTo y (is.map .event : List (Pending I T)) = [] := by
  simp [owedTo, partsTo, part, fromMessages]

variable (g : Group I T σ ε) {work rest : List (Pending I T)}

theorem check_spec (x : Except (GroupFailure I ε) α) (s : State I T σ) :
    Wp (check x) (fun a s' => x = .ok a ∧ s' = s) (fun _ _ => True) s := by
  cases x with
  | ok a => exact ⟨rfl, rfl⟩
  | error e => trivial

/-- The work is taken apart at its first node. -/
theorem firstNode_eq_some {owed : Pending I T} (h : g.firstNode work = some (owed, rest)) :
    ∃ before after, work = before ++ owed :: after ∧ rest = before ++ after ∧
      (∀ item ∈ before, (g.member (g.owner item)).busSimulation = true) ∧
      (g.member (g.owner owed)).busSimulation = false := by
  induction work generalizing rest with
  | nil => cases h
  | cons item work ih =>
    rw [firstNode] at h
    split at h
    · rename_i hbus
      obtain ⟨⟨found, others⟩, hfound, heq⟩ := Option.map_eq_some_iff.mp h
      obtain ⟨rfl, rfl⟩ := Prod.mk.inj heq
      obtain ⟨before, after, rfl, hrest, hbefore, howed⟩ := ih hfound
      refine ⟨item :: before, after, rfl, ?_, ?_, howed⟩
      · simp [hrest]
      · simpa using ⟨hbus, hbefore⟩
    · rename_i hbus
      obtain ⟨rfl, rfl⟩ := Prod.mk.inj (Option.some.inj h)
      exact ⟨[], work, rfl, rfl, by simp, by simpa using hbus⟩

variable [DecidableEq T] {combined : List (T × List (Option Nat × Bytes))}

/-- What is handed to connected peers comes with no Message. -/
theorem owedTo_propagated (y : T) (produced : List (T × Bytes)) :
    owedTo y (g.propagated produced) = [] := by
  rw [owedTo, fromMessages, filterMap_eq_nil_iff]
  intro p hp
  simp only [partsTo, propagated, mem_map, mem_filter, mem_filterMap] at hp
  obtain ⟨q, ⟨⟨item, ⟨source, _, hitem⟩, hpart⟩, _⟩, rfl⟩ := hp
  obtain ⟨peer, _, rfl⟩ := Option.map_eq_some_iff.mp hitem
  simp only [part, Option.some.injEq] at hpart
  simp [← hpart]

/-- A terminal is owed parts only by work of its owner. -/
theorem partsTo_of_owner {y : T} (h : ∀ item ∈ work, g.owner item ≠ (g.transceiver y).owner) :
    partsTo y work = [] := by
  rw [partsTo, map_eq_nil_iff, filter_eq_nil_iff]
  intro p hp hy
  obtain ⟨item, hitem, hpart⟩ := mem_filterMap.mp hp
  cases item with
  | event i => cases hpart
  | activation x payload origin =>
    simp only [part, Option.some.injEq] at hpart
    subst hpart
    have hxy : x = y := by simpa using hy
    exact h _ hitem (by rw [owner, hxy])

/-! ## Which work is taken -/

/-- Taking the first node keeps the order of every terminal. -/
theorem partsTo_firstNode {owed : Pending I T} (h : g.firstNode work = some (owed, rest)) (y : T) :
    partsTo y [owed] ++ partsTo y rest = partsTo y work := by
  obtain ⟨before, after, rfl, rfl, hbefore, howed⟩ := g.firstNode_eq_some h
  rw [partsTo_append, partsTo_append, partsTo_cons y owed after]
  -- What stands before it belongs to bus simulations, it belongs to none.
  by_cases hy : (g.transceiver y).owner = g.owner owed
  · have hnone : partsTo y before = [] := by
      refine g.partsTo_of_owner fun item hitem heq => ?_
      have hbus := hbefore item hitem
      rw [heq, hy, howed] at hbus
      cases hbus
    simp [hnone]
  · have hnone : partsTo y [owed] = [] := by
      refine g.partsTo_of_owner fun item hitem heq => hy ?_
      rw [← heq, mem_singleton.mp hitem]
    simp [hnone]

/-- Work that owes a terminal nothing may be left out. -/
theorem partsTo_filter {y : T} {p : Pending I T → Bool}
    (h : ∀ item, p item = false → partsTo y [item] = []) :
    partsTo y (work.filter p) = partsTo y work := by
  induction work with
  | nil => rfl
  | cons item work ih =>
    rw [partsTo_cons y item work, ← ih]
    cases hp : p item with
    | true =>
      rw [filter_cons_of_pos hp]
      exact partsTo_cons y item _
    | false => rw [filter_cons_of_neg (by simp [hp]), h item hp, nil_append]

/-! ## What is handed over -/

/-- The parts a list of buffers holds for a terminal. -/
def combinedTo (y : T) (combined : List (T × List (Option Nat × Bytes))) :
    List (Option Nat × Bytes) :=
  combined.flatMap fun p => if p.1 = y then p.2 else []

theorem combinedTo_eq_nil {y : T} (h : y ∉ combined.map (·.1)) : combinedTo y combined = [] := by
  rw [combinedTo, flatMap_eq_nil_iff]
  intro p hp
  rw [if_neg]
  rintro rfl
  exact h (mem_map_of_mem hp)

theorem keys_extend (combined : List (T × List (Option Nat × Bytes))) (p : T × Option Nat × Bytes) :
    (extend combined p).map (·.1) =
      if p.1 ∈ combined.map (·.1) then combined.map (·.1) else combined.map (·.1) ++ [p.1] := by
  induction combined with
  | nil => rfl
  | cons entry combined ih =>
    by_cases hx : entry.1 = p.1
    · simp [extend, hx]
    · have hne : p.1 ≠ entry.1 := fun heq => hx heq.symm
      simp only [extend, if_neg hx, map_cons, ih, mem_cons, hne, false_or]
      split_ifs
      · rfl
      · rfl

theorem nodup_keys_extend (p : T × Option Nat × Bytes) (h : (combined.map (·.1)).Nodup) :
    ((extend combined p).map (·.1)).Nodup := by
  rw [keys_extend]
  split_ifs with hp
  · exact h
  · rw [nodup_append]
    refine ⟨h, nodup_singleton _, ?_⟩
    intro x hx z hz heq
    rw [mem_singleton.mp hz] at heq
    exact hp (heq ▸ hx)

theorem combinedTo_extend (y : T) (p : T × Option Nat × Bytes) (h : (combined.map (·.1)).Nodup) :
    combinedTo y (extend combined p) =
      combinedTo y combined ++ (if p.1 = y then [p.2] else []) := by
  induction combined with
  | nil => simp [extend, combinedTo]
  | cons entry combined ih =>
    obtain ⟨hentry, hnodup⟩ := nodup_cons.mp h
    simp only [combinedTo, extend] at ih ⊢
    by_cases hx : entry.1 = p.1
    · -- Its terminal has no other buffer behind this one.
      by_cases hy : p.1 = y
      · have hnone := combinedTo_eq_nil (y := y) (by rw [← hy, ← hx]; exact hentry)
        simp only [combinedTo] at hnone
        simp [hx, hy, hnone]
      · simp [hx, hy]
    · simp only [if_neg hx, flatMap_cons, ih hnodup, append_assoc]

/-- Combining keeps what every terminal is owed, in its order. -/
theorem combinedTo_combine (y : T) (work : List (Pending I T)) :
    combinedTo y (combine work) = partsTo y work := by
  have hfold : ∀ (parts : List (T × Option Nat × Bytes))
      (combined : List (T × List (Option Nat × Bytes))), (combined.map (·.1)).Nodup →
      combinedTo y (parts.foldl extend combined) =
        combinedTo y combined ++ (parts.filter fun p => p.1 = y).map (·.2) := by
    intro parts
    induction parts with
    | nil => intro combined _; simp
    | cons p parts ih =>
      intro combined h
      rw [foldl_cons, ih _ (nodup_keys_extend p h), combinedTo_extend y p h]
      by_cases hy : p.1 = y
      · simp [hy]
      · simp [hy]
  rw [combine, hfold _ [] nodup_nil]
  rfl

/-- What handing over buffers gives a terminal. -/
theorem handedParts_handed (y : T) (instant : Int)
    (buffers : List (T × List (Option Nat × Bytes))) :
    handedParts y instant (buffers.map fun p => (.handed p.1 instant p.2 : Event I T σ)) =
      combinedTo y buffers := by
  simp only [handedParts, combinedTo, flatMap_map, handedBy, and_true]

variable [DecidableEq I]

/-- Taking all work of one instance keeps the order of every terminal. -/
theorem partsTo_filter_owner (work : List (Pending I T)) (i : I) (y : T) :
    partsTo y (work.filter fun item => g.owner item = i) ++
      partsTo y (work.filter fun item => ¬ g.owner item = i) = partsTo y work := by
  by_cases hy : (g.transceiver y).owner = i
  · have hrest : partsTo y (work.filter fun item => ¬ g.owner item = i) = [] :=
      g.partsTo_of_owner fun item hitem => by simpa [hy] using (mem_filter.mp hitem).2
    rw [hrest, append_nil]
    refine partsTo_filter fun item hitem => g.partsTo_of_owner ?_
    simpa [hy] using hitem
  · have hmine : partsTo y (work.filter fun item => g.owner item = i) = [] := by
      refine g.partsTo_of_owner fun item hitem heq => hy ?_
      rw [← heq]
      simpa using (mem_filter.mp hitem).2
    rw [hmine]
    refine partsTo_filter fun item hitem => g.partsTo_of_owner ?_
    have howner : g.owner item = i := by simpa using hitem
    simpa [howner] using fun heq => hy heq.symm

/-! ## The propagation -/

omit [DecidableEq T] in
theorem onMember_history (i : I) (x : Instance.Drive T (σ i) (ε i) α) (s : State I T σ) :
    Wp (onMember i x) (fun _ s' => s'.history = s.history) (fun _ _ => True) s := by
  rw [onMember, Wp.zoom_iff]
  exact Wp.intro (fun _ _ _ => rfl) fun _ _ _ => trivial

omit [DecidableEq T] in
/-- Payloads handed over one after the other are entries of the history. -/
theorem handOver_each (instant : Int) (buffers : List (T × List (Option Nat × Bytes)))
    (s : State I T σ) :
    Wp (forM buffers fun p => g.handOver instant p.1 p.2)
      (fun _ s' => s'.history = s.history ++ buffers.map fun p => .handed p.1 instant p.2)
      (fun _ _ => True) s := by
  refine Wp.for_each
    (I := fun (done : List (T × List (Option Nat × Bytes))) (s' : State I T σ) =>
      s'.history = s.history ++ done.map fun p => .handed p.1 instant p.2) ?_ ?_
  · intro done p rest s' _ hs'
    refine Wp.bind (onMember_history _ _ s') ?_
    intro _ s'' hs''
    simp [note, hs'', hs']
  · simp

/-- What the propagation does with the work it is started with. -/
structure Settled (instant : Int) (pending : List (Pending I T)) (events : List (Event I T σ)) :
    Prop where
  atInstant : ∀ e ∈ events, AtInstant instant e
  handed : ∀ y, fromMessages (handedParts y instant events) = owedTo y pending

theorem deliverSameInstant_spec (instant : Int) (first : Pending I T) (others : List (Pending I T))
    (s : State I T σ) :
    Wp (g.deliverSameInstant instant first others)
      (fun taken s' => ∃ buffers : List (T × List (Option Nat × Bytes)),
        s'.history = s.history ++ (buffers.map fun p => .handed p.1 instant p.2) ∧
        ∀ y, combinedTo y buffers ++ partsTo y taken.2 = partsTo y (first :: others))
      (fun _ _ => True) s := by
  rw [deliverSameInstant]
  split
  · rename_i owed rest hfirst
    have horder := g.partsTo_firstNode hfirst
    cases owed with
    | event i => exact ⟨[], by simp, horder⟩
    | activation x payload origin =>
      refine Wp.bind (g.handOver_each instant [(x, [(origin, payload)])] s) ?_
      intro _ s' hs'
      refine ⟨_, hs', fun y => ?_⟩
      rw [← horder y]
      by_cases hy : x = y
      · simp [combinedTo, partsTo, part, hy]
      · simp [combinedTo, partsTo, part, hy]
  · refine Wp.bind (g.handOver_each instant _ s) ?_
    intro _ s' hs'
    refine ⟨_, hs', fun y => ?_⟩
    rw [combinedTo_combine]
    exact g.partsTo_filter_owner (first :: others) (g.owner first) y

theorem handle_history (i : I) (instant : Int) (s : State I T σ) : Wp (g.handle i instant)
      (fun _ s' => s'.history = s.history ++
        [.handled i instant (s.members i) (s'.members i)]) (fun _ _ => True) s := by
  rw [handle, Wp.bind_iff]
  refine Wp.bind (onMember_history i _ s) ?_
  intro _ s' hs'
  simp [note, hs']

omit [DecidableEq T] in
theorem quiesce_history (instant : Int) (s : State I T σ) :
    Wp (g.quiesce instant) (fun _ s' => s'.history = s.history) (fun _ _ => True) s := by
  refine Wp.bind (Q := fun _ s' => s'.history = s.history) ?_ ?_
  · refine Wp.for_each (I := fun _ (s' : State I T σ) => s'.history = s.history) ?_ rfl
    intro _ i _ s' _ hs'
    exact (onMember_history i _ s').post fun _ _ h => h.trans hs'
  · intro _ s' hs'
    refine Wp.for_each (I := fun _ (s' : State I T σ) => s'.history = s.history) ?_ hs'
    intro _ i _ s' _ hs'
    exact (onMember_history i _ s').post fun _ _ h => h.trans hs'

/-- The propagation hands over the work it is started with.  By induction on
the propagations that are left: what an iteration hands over and what it leaves
is what it was owed, and what it adds came with no Message. -/
theorem propagate_spec (instant : Int) (left : Nat) (pending : List (Pending I T))
    (s : State I T σ) :
    Wp (g.propagate instant left pending)
      (fun _ s' => ∃ events, s'.history = s.history ++ events ∧ Settled instant pending events)
      (fun _ _ => True) s := by
  induction left generalizing pending s with
  | zero => trivial
  | succ left ih =>
    cases pending with
    | nil =>
      refine Wp.bind (g.quiesce_history instant s) ?_
      intro _ s' hs'
      exact ⟨[], by simp [hs'], by simp, fun _ => rfl⟩
    | cons first others =>
      refine Wp.bind (g.deliverSameInstant_spec instant first others s) ?_
      rintro ⟨i, remaining⟩ s₁ ⟨buffers, hs₁, hbuffers⟩
      refine Wp.bind (g.handle_history i instant s₁) ?_
      intro produced s₂ hs₂
      refine Wp.bind (check_spec _ s₂) ?_
      rintro published s₃ ⟨_, rfl⟩
      refine Wp.bind (ih (remaining ++ g.propagated produced) s₃) ?_
      rintro later s₄ ⟨events, hs₄, hevents⟩
      refine ⟨(buffers.map fun p => .handed p.1 instant p.2) ++
        .handled i instant (s₁.members i) (s₃.members i) :: events, ?_, ?_, ?_⟩
      · simp [hs₄, hs₂, hs₁]
      · intro e he
        rcases mem_append.mp he with hhanded | hlater
        · obtain ⟨p, _, rfl⟩ := mem_map.mp hhanded
          rfl
        · rcases mem_cons.mp hlater with rfl | hlater
          · rfl
          · exact hevents.atInstant e hlater
      · intro y
        have hlater := hevents.handed y
        rw [owedTo_append, g.owedTo_propagated, append_nil] at hlater
        rw [handedParts_append, fromMessages_append, handedParts_handed, owedTo, ← hbuffers y,
          fromMessages_append]
        exact congrArg _ hlater

theorem settle_spec (instant : Int) (pending : List (Pending I T)) (s : State I T σ) :
    Wp (g.settle instant pending)
      (fun _ s' => ∃ events, s'.history = s.history ++ events ∧ Settled instant pending events)
      (fun _ _ => True) s := by
  rw [settle]
  split
  · rename_i hnil
    exact ⟨[], by simp, by simp, fun _ => by simp [hnil, owedTo, handedParts]⟩
  · exact g.propagate_spec instant maxPropagations pending s

end SilFormal.Fmi.Group
