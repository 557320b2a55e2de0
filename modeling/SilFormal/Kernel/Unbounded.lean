import SilFormal.Kernel.Separation

/-!
# Routing without capacities

A routing state is compared with the same state without capacities.  Service
calls that refuse no Message do the same to both.  Where the first state
refuses a Message, the second one goes over a capacity of the first, and only
the owner of the route could bring it back.  So an activation refuses nothing
exactly if, without capacities, it leaves every route of another owner within
its capacity.
-/

namespace SilFormal.Kernel

open List

universe u

/-- A route without its capacity. -/
def SubscriberRoute.unbounded (route : SubscriberRoute) : SubscriberRoute :=
  { route with capacity := none }

variable {route : SubscriberRoute}

theorem SubscriberRoute.take_unbounded (route : SubscriberRoute) (nowNs : Nat) :
    route.unbounded.take nowNs = (route.take nowNs).map fun out => (out.1, out.2.unbounded) := by
  obtain ⟨latencyNs, capacity, overflow, pending⟩ := route
  cases pending with
  | nil => rfl
  | cons front rest =>
    by_cases hv : visible latencyNs nowNs front.publishNs = true
    · simp [unbounded, take, visibleAt, hv, pop]
    · simp [unbounded, take, visibleAt, hv]

/-- A full route has a capacity, and its depth is not below it. -/
theorem SubscriberRoute.capacity_of_full (h : route.full = true) :
    ∃ k, route.capacity = some k ∧ k ≤ route.depth := by
  unfold full at h
  cases hcap : route.capacity with
  | none => simp [hcap] at h
  | some k => exact ⟨k, rfl, by simpa [hcap] using h⟩

theorem SubscriberRoute.depth_lt_of_room (h : route.full = false) {k : Nat}
    (hk : route.capacity = some k) : route.depth < k := by
  simpa [full, hk] using h

/-- The event of a Message that did not get into a route. -/
def Event.isRefused : Event → Bool
  | .refused _ _ _ => true
  | _ => false

namespace Router

/-- The routing state without the capacities of its routes. -/
def unbounded (r : Router) : Router :=
  { r with routes := fun o c => (r.routes o c).unbounded }

section Fields

variable (r : Router)

theorem unbounded_setRoute (o c : String) (q : SubscriberRoute) :
    (r.setRoute o c q).unbounded = r.unbounded.setRoute o c q.unbounded := by
  have hroutes : (r.setRoute o c q).unbounded.routes =
      (r.unbounded.setRoute o c q.unbounded).routes := by
    funext o' c'
    simp only [unbounded, setRoute_routes]
    split_ifs
    · rfl
    · rfl
  exact congrArg (fun routes => ({ r with routes := routes } : Router)) hroutes

theorem take_unbounded (owner channel : String) : r.unbounded.take owner channel =
      (r.take owner channel).map fun out => (out.1, out.2.unbounded) := by
  have htake := (r.routes owner channel).take_unbounded r.nowNs
  simp only [take, show (r.unbounded.routes owner channel).take r.unbounded.nowNs =
    (r.routes owner channel).unbounded.take r.nowNs from rfl, htake]
  cases (r.routes owner channel).take r.nowNs with
  | none => rfl
  | some out =>
    exact congrArg (fun r' => some (out.1, r'.note (.took owner channel out.1)))
      (r.unbounded_setRoute owner channel out.2).symm

theorem merge_unbounded (owner : String) (inputs : List String) (fuel : Nat) :
    merge owner inputs fuel r.unbounded =
      ((merge owner inputs fuel r).1, (merge owner inputs fuel r).2.unbounded) := by
  induction fuel generalizing r with
  | zero => rfl
  | succ fuel ih =>
    simp only [merge, show r.unbounded.best owner inputs = r.best owner inputs from rfl]
    cases r.best owner inputs with
    | none => rfl
    | some channel =>
      simp only [take_unbounded]
      cases r.take owner channel with
      | none => rfl
      | some out => simp only [Option.map_some, ih out.2]

theorem takeInputs_unbounded (owner : String) (inputs : List String) :
    r.unbounded.takeInputs owner inputs =
      ((r.takeInputs owner inputs).1, (r.takeInputs owner inputs).2.unbounded) :=
  r.merge_unbounded owner inputs _

end Fields

/-! ## One route after another -/

theorem unbounded_enqueue (r : Router) (owner channel : String) (m : PendingMessage) :
    (r.enqueue owner channel m).unbounded = r.unbounded.enqueue owner channel m :=
  congrArg (fun r' => r'.note (.enqueued owner channel m))
    (r.unbounded_setRoute owner channel _)

/-! ## Refused Messages -/

/-- No route refused a Message. -/
def RefusesNone (r : Router) : Prop :=
  ∀ o c m, Event.refused o c m ∉ r.trace

instance (r : Router) : Decidable r.RefusesNone :=
  decidable_of_iff (∀ e ∈ r.trace, e.isRefused = false) <| by
    constructor
    · intro h o c m hmem
      cases h _ hmem
    · intro h e he
      cases e with
      | refused o c m => exact absurd he (h o c m)
      | _ => rfl

theorem RefusesNone.of_trace {r r' : Router} (h : r'.RefusesNone) (htrace : r.trace <+: r'.trace) :
    r.RefusesNone :=
  fun o c m hmem => h o c m (htrace.subset hmem)

theorem RefusesNone.note {r : Router} (h : r.RefusesNone) {e : Event}
    (he : ∀ o c m, e ≠ .refused o c m) : (r.note e).RefusesNone := by
  intro o c m hmem
  rw [note_trace, mem_append, mem_singleton] at hmem
  rcases hmem with hmem | hmem
  · exact h o c m hmem
  · exact he o c m hmem.symm

theorem not_refusesNone_note (r : Router) (o c : String) (m : PendingMessage) :
    ¬ (r.note (.refused o c m)).RefusesNone :=
  fun h => h o c m (by simp)

theorem Published.trace_le {owner channel : String} {data : Bytes} {r r' : Router}
    {error : Option String} (h : Published owner channel data r r' error) :
    r.trace <+: r'.trace := by
  cases h with
  | unknown _ _ => exact prefix_rfl
  | wrongSize _ _ _ _ => exact prefix_rfl
  | outOfRange _ _ _ _ _ _ => exact prefix_rfl
  | suppressed _ _ _ _ _ _ _ => exact prefix_append _ _
  | delivered _ _ _ _ _ _ _ _ _ hpush =>
    obtain ⟨events, htrace, _⟩ := pushAll_trace hpush
    rw [htrace]
    exact (prefix_append _ _).trans (prefix_append _ _)

theorem Steps.trace_le {ok : Bool} {r r' : Router} (h : Steps ok r r') : r.trace <+: r'.trace := by
  refine h.invariant (I := fun x => r.trace <+: x.trace) (fun a b ha hstep => ?_)
    prefix_rfl
  cases hstep with
  | tick _ _ => exact ha
  | activation _ _ => exact ha.trans (prefix_append _ _)
  | act hact =>
    cases hact with
    | take _ htook =>
      rw [htook.eq]
      exact ha.trans (prefix_append _ _)
    | publish _ _ hpub => exact ha.trans hpub.trace_le

/-! ## Capacities -/

/-- The routes have these capacities, and none of them holds more. -/
structure Bounded (cap : String → String → Option Nat) (r : Router) : Prop where
  capacity : ∀ o c, (r.routes o c).capacity = cap o c
  depth_le : ∀ o c k, cap o c = some k → (r.routes o c).depth ≤ k

/-- Some route of another owner holds more than a capacity. -/
def Exceeds (cap : String → String → Option Nat) (owner : String) (r : Router) : Prop :=
  ∃ o c k, o ≠ owner ∧ cap o c = some k ∧ k < (r.routes o c).depth

section Bounded

variable {cap : String → String → Option Nat} {r r' : Router} {error : Option String}

theorem Bounded.of_routes (h : r.Bounded cap) (hroutes : r'.routes = r.routes) :
    r'.Bounded cap := by
  refine ⟨fun o c => ?_, fun o c k hk => ?_⟩
  · rw [hroutes, h.capacity]
  · rw [hroutes]
    exact h.depth_le o c k hk

theorem Bounded.setRoute (h : r.Bounded cap) {o c : String} {q : SubscriberRoute}
    (hcap : q.capacity = cap o c) (hdepth : ∀ k, cap o c = some k → q.depth ≤ k) :
    (r.setRoute o c q).Bounded cap := by
  refine ⟨fun o' c' => ?_, fun o' c' k hk => ?_⟩
  · rw [setRoute_routes]
    split_ifs with hoc
    · rw [hcap, hoc.1, hoc.2]
    · exact h.capacity o' c'
  · rw [setRoute_routes]
    split_ifs with hoc
    · exact hdepth k (by rw [← hoc.1, ← hoc.2, hk])
    · exact h.depth_le o' c' k hk

theorem Bounded.note (h : r.Bounded cap) (e : Event) : (r.note e).Bounded cap :=
  h.of_routes rfl

theorem Bounded.enqueue (h : r.Bounded cap) {o c : String} (m : PendingMessage)
    (hroom : (r.routes o c).full = false) : (r.enqueue o c m).Bounded cap := by
  refine (h.setRoute (q := { r.routes o c with pending := (r.routes o c).pending ++ [m] })
    (h.capacity o c) fun k hk => ?_).note _
  have hlt := SubscriberRoute.depth_lt_of_room hroom ((h.capacity o c).trans hk)
  simpa [SubscriberRoute.depth] using hlt

theorem Bounded.pushAll (h : r.Bounded cap) {publisher channel : String} {m : PendingMessage}
    {subscribers : List String}
    (hpush : Router.pushAll publisher channel m subscribers r = (r', error)) : r'.Bounded cap := by
  induction subscribers generalizing r with
  | nil =>
    obtain ⟨rfl, rfl⟩ := Prod.mk.inj hpush
    exact h
  | cons owner rest ih =>
    cases hfull : (r.routes owner channel).full with
    | false =>
      rw [pushAll_cons_of_room hfull] at hpush
      exact ih (h.enqueue m hfull) hpush
    | true =>
      rcases pushAll_cons_of_full publisher m rest hfull with hcons | ⟨text, hcons⟩
      · rw [hcons] at hpush
        exact ih (h.note _) hpush
      · rw [hcons] at hpush
        obtain ⟨rfl, _⟩ := Prod.mk.inj hpush
        exact h.note _

theorem Bounded.published (h : r.Bounded cap) {owner channel : String} {data : Bytes}
    (hpub : Published owner channel data r r' error) : r'.Bounded cap := by
  cases hpub with
  | delivered c plan visibleNs bytes _ _ _ _ _ hpush =>
    have hstamped : (r.stamp channel c plan data
        (some ⟨channel, visibleNs, c.nextSeq, bytes⟩)).Bounded cap := h.of_routes rfl
    exact hstamped.pushAll hpush
  | _ => exact h.of_routes rfl

theorem Bounded.took (h : r.Bounded cap) {owner channel : String} {m : PendingMessage}
    (htook : Took owner channel m r r') : r'.Bounded cap := by
  rw [htook.eq]
  refine (h.setRoute (q := (r.routes owner channel).pop)
    (h.capacity owner channel) fun k hk => ?_).note _
  refine le_trans ?_ (h.depth_le owner channel k hk)
  simp [SubscriberRoute.depth, SubscriberRoute.pop]

theorem Bounded.steps (h : r.Bounded cap) {ok : Bool} (hsteps : Steps ok r r') :
    r'.Bounded cap := by
  refine hsteps.invariant (fun a b ha hstep => ?_) h
  cases hstep with
  | tick _ _ => exact ha.of_routes rfl
  | activation _ _ => exact ha.of_routes rfl
  | act hact =>
    cases hact with
    | take _ htook => exact ha.took htook
    | publish _ _ hpub => exact ha.published hpub

end Bounded

/-! ## The depth of the routes inside a Slot -/

section Depth

variable
    {ok : Bool} {owner : String} {contract : Contract} {r r' : Router}

/-- The routes of other owners only grow. -/
theorem Acts.depth_le (hacts : Acts ok owner contract r r') (hopen : r.Open) {o : String}
    (hne : o ≠ owner) (c : String) : (r.routes o c).depth ≤ (r'.routes o c).depth := by
  refine (hacts.invariant
    (I := fun x => x.Open ∧ (r.routes o c).depth ≤ (x.routes o c).depth)
    (fun a b ha hact => ?_) ⟨hopen, le_rfl⟩).2
  obtain ⟨haopen, hle⟩ := ha
  cases hact with
  | take _ htook =>
    refine ⟨htook.keeps_open haopen, ?_⟩
    rw [(htook.other fun hh => hne hh.1).1]
    exact hle
  | publish _ _ hpub =>
    obtain ⟨ms, hroute, _⟩ := hpub.routes_of_open haopen o c
    refine ⟨hpub.keeps_open haopen, ?_⟩
    rw [hroute]
    refine hle.trans ?_
    simp [SubscriberRoute.depth]

/-- A route whose Channel the participant does not publish only shrinks. -/
theorem Acts.depth_ge (hacts : Acts ok owner contract r r') (o : String) {c : String}
    (hc : c ∉ contract.publishes) : (r'.routes o c).depth ≤ (r.routes o c).depth := by
  refine hacts.invariant (I := fun x => (x.routes o c).depth ≤ (r.routes o c).depth)
    (fun a b ha hact => ?_) le_rfl
  cases hact with
  | @take channel _ _ _ _ htook =>
    by_cases hoc : o = owner ∧ c = channel
    · obtain ⟨rfl, rfl⟩ := hoc
      rw [htook.self.1]
      refine le_trans ?_ ha
      simp [SubscriberRoute.depth, SubscriberRoute.pop]
    · rw [(htook.other hoc).1]
      exact ha
  | publish hmem _ hpub =>
    have hne : c ≠ _ := fun heq => hc (heq ▸ hmem)
    rw [((hpub.other hne).2.2 o).1]
    exact ha

/-- What is ready in a Slot only gets less. -/
theorem Acts.ready_le (hacts : Acts ok owner contract r r') (hopen : r.Open) (o c : String) :
    (r'.readyContent o c).length ≤ (r.readyContent o c).length := by
  refine (hacts.invariant (I := fun x => x.Open ∧
    (x.readyContent o c).length ≤ (r.readyContent o c).length)
    (fun a b ha hact => ?_) ⟨hopen, le_rfl⟩).2
  obtain ⟨haopen, hle⟩ := ha
  cases hact with
  | take _ htook =>
    refine ⟨htook.keeps_open haopen, ?_⟩
    by_cases ho : o = owner
    · subst ho
      have hready := congrArg length (htook.ready_after c)
      rw [length_append] at hready
      simp only [readyContent, length_map] at hle ⊢
      omega
    · rw [← (htook.sameOwner_other ho).ready c]
      exact hle
  | publish _ _ hpub =>
    refine ⟨hpub.keeps_open haopen, ?_⟩
    rw [← (hpub.sameOwner haopen o).ready c]
    exact hle

theorem depth_eq (r : Router) (o c : String) : (r.routes o c).depth =
      (r.readyContent o c).length + (r.waitingContent o c).length := by
  rw [← length_append, ready_append_waiting_content, pendingContent, length_map]
  rfl

theorem Exceeds.acts {cap : String → String → Option Nat} (h : r.Exceeds cap owner) (hopen : r.Open)
    (hacts : Acts ok owner contract r r') : r'.Exceeds cap owner := by
  obtain ⟨o, c, k, hne, hk, hlt⟩ := h
  exact ⟨o, c, k, hne, hk, hlt.trans_le (hacts.depth_le hopen hne c)⟩

end Depth

/-! ## The same service calls with and without capacities -/

/-- Code on a routing state and on the same state without capacities: it refuses
nothing and does the same, or it refuses something and goes over a capacity. -/
inductive Matches (cap : String → String → Option Nat) (owner : String) {α : Type u}
    (out out' : Router × α) : Prop
  | same : out.1.RefusesNone → out' = (out.1.unbounded, out.2) → Matches cap owner out out'
  | exceeds : ¬ out.1.RefusesNone → out'.1.Exceeds cap owner → Matches cap owner out out'

section Matches

variable
    {cap : String → String → Option Nat} {owner channel : String} {r : Router}

theorem pushAll_matches (hbounded : r.Bounded cap) (hnone : r.RefusesNone)
    (hself : cap owner channel = none) (m : PendingMessage) (subscribers : List String) :
    Matches cap owner (pushAll owner channel m subscribers r)
      (pushAll owner channel m subscribers r.unbounded) := by
  induction subscribers generalizing r with
  | nil => exact .same hnone rfl
  | cons o rest ih =>
    cases hfull : (r.routes o channel).full with
    | false =>
      rw [pushAll_cons_of_room hfull, pushAll_cons_of_room rfl, ← unbounded_enqueue]
      exact ih (hbounded.enqueue m hfull) ((hnone.of_trace prefix_rfl).note (by simp))
    | true =>
      obtain ⟨k, hk, hle⟩ := SubscriberRoute.capacity_of_full hfull
      have hcap : cap o channel = some k := (hbounded.capacity o channel).symm.trans hk
      have hne : o ≠ owner := by
        rintro rfl
        rw [hself] at hcap
        cases hcap
      refine .exceeds ?_ ⟨o, channel, k, hne, hcap, ?_⟩
      · rcases pushAll_cons_of_full owner m rest hfull with hcons | ⟨text, hcons⟩
        · rw [hcons]
          rcases hpush : pushAll owner channel m rest (r.note (.refused o channel m))
            with ⟨r₁, error⟩
          obtain ⟨events, htrace, _⟩ := pushAll_trace hpush
          exact fun h => not_refusesNone_note r o channel m
            (h.of_trace (htrace ▸ prefix_append _ _))
        · rw [hcons]
          exact not_refusesNone_note r o channel m
      · rcases hpush : pushAll owner channel m (o :: rest) r.unbounded with ⟨r₁, error⟩
        rw [(pushAll_open hpush fun _ _ => rfl).2 o]
        have hdepth : k ≤ (r.unbounded.routes o channel).pending.length := hle
        simp only [SubscriberRoute.depth, length_append, length_replicate, count_cons_self]
        omega

theorem publish_matches (hbounded : r.Bounded cap) (hnone : r.RefusesNone)
    (hself : cap owner channel = none) (data : Bytes) :
    Matches cap owner (r.publish owner channel data)
      (r.unbounded.publish owner channel data) := by
  simp only [publish, show r.unbounded.channels channel = r.channels channel from rfl]
  cases hc : r.channels channel with
  | none => exact .same hnone rfl
  | some c =>
    by_cases hsize : data.length ≠ c.byteSize
    · simp only [if_pos hsize]
      exact .same hnone rfl
    · simp only [if_neg hsize, show r.unbounded.nowNs = r.nowNs from rfl]
      rcases c.plan.apply r.nowNs data with ⟨plan, answer⟩
      cases answer with
      | outOfRange => exact .same hnone rfl
      | verdict verdict bytes =>
        have hstamp : ∀ outcome, (r.stamp channel c plan data outcome).RefusesNone :=
          fun outcome => (hnone.of_trace prefix_rfl).note (by simp)
        have hbounded' : ∀ outcome, (r.stamp channel c plan data outcome).Bounded cap :=
          fun outcome => hbounded.of_routes rfl
        by_cases hsup : verdict.suppressed = true
        · simp only [if_pos hsup]
          exact .same (hstamp none) rfl
        · simp only [if_neg hsup]
          exact pushAll_matches (hbounded' _) (hstamp _) hself _ _

/-- A Message that was refused stays refused, whatever the owner goes on with. -/
theorem Matches.of_exceeds {α : Type u} {contract : Contract} {r₁ r₁' : Router}
    {out out' : Router × α} (hrefused : ¬ r₁.RefusesNone) (hexceeds : r₁'.Exceeds cap owner)
    (hopen : r₁'.Open) (hacts : Acts false owner contract r₁ out.1)
    (hacts' : Acts false owner contract r₁' out'.1) : Matches cap owner out out' :=
  .exceeds (fun h => hrefused (h.of_trace hacts.steps.trace_le))
    (hexceeds.acts hopen hacts')

end Matches

end Router

open Router

section Code

variable
    {σ : Type u} {cap : String → String → Option Nat} {owner : String}
    {contract : Contract} {r : Router}

theorem runNative_matches (hself : ∀ c ∈ contract.publishes, cap owner c = none)
    (hopen : r.unbounded.Open) (hbounded : r.Bounded cap) (hnone : r.RefusesNone)
    (code : NativeCode σ) (failure : Option RunError) :
    Matches cap owner (runNative owner contract code r failure)
      (runNative owner contract code r.unbounded failure) := by
  induction code generalizing r failure with
  | ret state => exact .same hnone rfl
  | take channel resume ih =>
    simp only [runNative, take_unbounded]
    by_cases hmem : channel ∈ contract.subscribes
    · simp only [if_pos hmem]
      cases htake : r.take owner channel with
      | none => exact ih _ hopen hbounded hnone failure
      | some out =>
        obtain ⟨m, r₁⟩ := out
        have htook := take_spec htake
        have htook' : Took owner channel m r.unbounded r₁.unbounded :=
          take_spec (by rw [take_unbounded, htake]; rfl)
        refine ih _ (htook'.keeps_open hopen) (hbounded.took htook) ?_ failure
        rw [htook.eq]
        exact (hnone.of_trace prefix_rfl).note (by simp)
    · simp only [if_neg hmem]
      exact ih _ hopen hbounded hnone _
  | publish channel data resume ih =>
    simp only [runNative]
    by_cases hmem : channel ∈ contract.publishes
    · simp only [if_pos hmem]
      have hmatch := publish_matches hbounded hnone (hself channel hmem) data
      rcases hpub : r.publish owner channel data with ⟨r₁, error⟩
      rcases hpub' : r.unbounded.publish owner channel data with ⟨r₁', error'⟩
      rw [hpub, hpub'] at hmatch
      have hopen' : r₁'.Open := (publish_spec hpub').keeps_open hopen
      cases hmatch with
      | same hnone₁ heq =>
        obtain rfl : r₁' = r₁.unbounded := congrArg Prod.fst heq
        obtain rfl : error = error' := (congrArg Prod.snd heq).symm
        have hbounded₁ := hbounded.published (publish_spec hpub)
        cases error with
        | none => exact ih _ hopen' hbounded₁ hnone₁ failure
        | some text => exact ih _ hopen' hbounded₁ hnone₁ _
      | exceeds hrefused hexceeds =>
        have hgoes : ∀ (code code' : NativeCode σ) failure failure',
            Matches cap owner (runNative owner contract code r₁ failure)
              (runNative owner contract code' r₁' failure') :=
          fun code code' failure failure' => .of_exceeds hrefused hexceeds hopen'
            (runNative_acts false owner contract code r₁ failure (by simp))
            (runNative_acts false owner contract code' r₁' failure' (by simp))
        cases error <;> cases error' <;> exact hgoes _ _ _ _
    · simp only [if_neg hmem]
      exact ih _ hopen hbounded hnone _
  | fail reason resume ih =>
    exact ih hopen hbounded hnone _

theorem publishOutputs_matches (hself : ∀ c ∈ contract.publishes, cap owner c = none)
    (hopen : r.unbounded.Open) (hbounded : r.Bounded cap) (hnone : r.RefusesNone)
    {outputs : List StepOutput} (hmem : ∀ o ∈ outputs, o.channel ∈ contract.publishes) :
    Matches cap owner (publishOutputs owner outputs r)
      (publishOutputs owner outputs r.unbounded) := by
  induction outputs generalizing r with
  | nil => exact .same hnone rfl
  | cons output rest ih =>
    simp only [publishOutputs]
    have hmem' : ∀ o ∈ rest, o.channel ∈ contract.publishes := fun o ho =>
      hmem o (mem_cons_of_mem _ ho)
    have hmatch := publish_matches hbounded hnone
      (hself output.channel (hmem output (by simp))) output.bytes
    rcases hpub : r.publish owner output.channel output.bytes with ⟨r₁, error⟩
    rcases hpub' : r.unbounded.publish owner output.channel output.bytes with ⟨r₁', error'⟩
    rw [hpub, hpub'] at hmatch
    have hopen' : r₁'.Open := (publish_spec hpub').keeps_open hopen
    cases hmatch with
    | same hnone₁ heq =>
      obtain rfl : r₁' = r₁.unbounded := congrArg Prod.fst heq
      obtain rfl : error = error' := (congrArg Prod.snd heq).symm
      cases error with
      | none => exact ih hopen' (hbounded.published (publish_spec hpub)) hnone₁ hmem'
      | some text => exact .same hnone₁ rfl
    | exceeds hrefused hexceeds =>
      have hacts : ∀ r : Router, Acts false owner contract r
          (publishOutputs owner rest r).1 := fun r =>
        publishOutputs_acts false owner contract rest hmem' r (by simp)
      cases error with
      | none =>
        cases error' with
        | none => exact .of_exceeds hrefused hexceeds hopen' (hacts r₁) (hacts r₁')
        | some text' => exact .of_exceeds hrefused hexceeds hopen' (hacts r₁) .refl
      | some text =>
        cases error' with
        | none =>
          have hstay : Acts false owner contract r₁ r₁ := .refl
          exact .of_exceeds hrefused hexceeds hopen' hstay (hacts r₁')
        | some text' => exact .exceeds hrefused hexceeds

theorem settleStep_matches (hself : ∀ c ∈ contract.publishes, cap owner c = none)
    (hopen : r.unbounded.Open) (hbounded : r.Bounded cap) (hnone : r.RefusesNone)
    (limits : RunBoundaryLimits) (periodNs nowNs : Nat) (reply : StepReply σ) :
    Matches cap owner (settleStep owner contract limits periodNs nowNs reply r)
      (settleStep owner contract limits periodNs nowNs reply r.unbounded) := by
  cases reply with
  | failed reason => exact .same hnone rfl
  | broken message => exact .same hnone rfl
  | stepDone state outputs =>
    simp only [settleStep]
    cases hcheck : checkOutputs owner contract limits periodNs nowNs outputs with
    | some error => exact .same hnone rfl
    | none =>
      cases publishOutputs_matches hself hopen hbounded hnone
        (mem_publishes_of_checkOutputs hcheck) with
      | same hnone₁ heq =>
        refine .same hnone₁ ?_
        rw [heq]
      | exceeds hrefused hexceeds => exact .exceeds hrefused hexceeds

theorem runProcess_matches (hself : ∀ c ∈ contract.publishes, cap owner c = none)
    (hopen : r.unbounded.Open) (hbounded : r.Bounded cap) (hnone : r.RefusesNone)
    (limits : RunBoundaryLimits) (periodNs : Nat)
    (step : Nat → Nat → σ → List StepInput → StepReply σ) (state : σ) :
    Matches cap owner (runProcess owner contract limits periodNs step state r)
      (runProcess owner contract limits periodNs step state r.unbounded) := by
  have hacts : ∀ r : Router, Acts false owner ⟨contract.subscribes, []⟩ r
      (r.takeInputs owner contract.subscribes).2 := fun r =>
    merge_acts false owner ⟨contract.subscribes, []⟩ _ r
  -- taking refuses nothing
  have hnone' : (r.takeInputs owner contract.subscribes).2.RefusesNone := by
    refine (hacts r).invariant (fun a b ha hact => ?_) hnone
    cases hact with
    | take _ htook =>
      rw [htook.eq]
      exact (ha.of_trace prefix_rfl).note (by simp)
    | publish hmem _ _ => cases hmem
  have hopen' := (acts_frame (fun _ => true) (hacts r.unbounded) hopen).1
  simp only [runProcess, takeInputs_unbounded] at hopen' ⊢
  exact settleStep_matches hself hopen' (hbounded.steps (hacts r).steps) hnone' _ _ _ _

end Code

namespace Engine

variable {σ : Type u}

/-- The engine without the capacities of its routes. -/
def unbounded (e : Engine σ) : Engine σ :=
  { e with router := e.router.unbounded }

theorem call_matches {cap : String → String → Option Nat} {e : Engine σ} {t : Task σ}
    (hself : ∀ c ∈ (e.contracts t.owner).publishes, cap t.owner c = none)
    (hopen : e.unbounded.router.Open) (hbounded : e.router.Bounded cap)
    (hnone : e.router.RefusesNone) :
    Router.Matches cap t.owner (e.call t) (e.unbounded.call t) := by
  have hopen' : (e.router.note (.activation t.owner e.router.nowNs)).unbounded.Open :=
    ⟨hopen.capacity, hopen.latency, hopen.now_le⟩
  have hnone' := hnone.note (e := .activation t.owner e.router.nowNs) (by simp)
  unfold call
  cases t.fn with
  | native fn => exact runNative_matches hself hopen' (hbounded.note _) hnone' _ _
  | process step => exact runProcess_matches hself hopen' (hbounded.note _) hnone' _ _ _ _

end Engine

end SilFormal.Kernel
