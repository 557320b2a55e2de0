import Mathlib

/-!
# What a coupling plan says of one route

The plan of a route is computed by running two progressions against each other:
the publisher's Slots and the subscriber's activations.  A Message enters the
route when it is published and leaves it at the first activation at or after its
visible time.  The plan lists the activations up to one common period of the two
FMUs after the first Message can be visible.

As long as the route refuses nothing, its queue is a stretch of consecutive
publications, given by two counters that are closed forms of the time.
-/

namespace SilFormal.Coupling

open List

/-- The arguments of `_timeline`. -/
structure Route where
  publisherPeriod : Nat
  subscriberPeriod : Nat
  latency : Nat
  duration : Nat
  publisherFirst : Bool
  dropAbove : Option Nat
  publisherPeriod_pos : 0 < publisherPeriod
  subscriberPeriod_pos : 0 < subscriberPeriod

/-- The input that an activation steps on. -/
inductive Held
  | start
  | message (publishedNs valuesAtNs : Nat)
  deriving DecidableEq, Repr

structure Delivery where
  publishedNs : Nat
  valuesAtNs : Nat
  deliveredNs : Nat
  deriving DecidableEq, Repr

structure Activation where
  atNs : Nat
  delivered : Nat
  input : Held
  deriving DecidableEq, Repr

/-- The local variables of `_timeline`.  `publications` is what its iterator has
left, the present `publication` first. -/
structure Progress where
  publications : List Nat
  pending : List Nat
  deliveries : List Delivery
  activations : List Activation
  notListed : Nat
  dropped : List Nat
  peak : Nat
  held : Held
  finalTaken : Option Nat
  deriving DecidableEq, Repr

/-- How many deliveries of each route the plan lists. -/
def shownDeliveries : Nat :=
  3

/-- The most activations of each route the plan lists. -/
def shownActivations : Nat :=
  12

/-- `range(0, duration, period)`. -/
def slots (duration period : Nat) : List Nat :=
  (List.range ((duration + (period - 1)) / period)).map (· * period)

namespace Route

variable (r : Route)

def final : Int :=
  r.duration - r.publisherPeriod

def shownUntil : Nat :=
  r.latency + Nat.lcm r.publisherPeriod r.subscriberPeriod

/-- A publication comes before an activation. -/
def before (publication drain : Nat) : Bool :=
  publication < drain || (publication == drain && r.publisherFirst)

def publish (p : Progress) (publishedNs : Nat) : Progress :=
  if r.dropAbove.any fun capacity => capacity ≤ p.pending.length then
    { p with dropped := p.dropped ++ [publishedNs] }
  else
    { p with
      pending := p.pending ++ [publishedNs]
      peak := max p.peak (p.pending.length + 1) }

/-- The loops that publish, over what the iterator has left. -/
def publishWhile (due : Nat → Bool) : List Nat → Progress → Progress
  | [], p => { p with publications := [] }
  | publication :: rest, p =>
    if due publication then
      publishWhile due rest (r.publish p publication)
    else
      { p with publications := publication :: rest }

/-- One turn of the loop that takes. -/
def take (drain publishedNs : Nat) (p : Progress) : Progress :=
  { p with
    held := .message publishedNs (publishedNs + r.publisherPeriod)
    finalTaken := if (publishedNs : Int) = r.final then some drain else p.finalTaken
    deliveries :=
      if p.deliveries.length < shownDeliveries then
        p.deliveries ++ [⟨publishedNs, publishedNs + r.publisherPeriod, drain⟩]
      else
        p.deliveries }

/-- The loop that takes, over the pending Messages. -/
def takeDue (drain : Nat) : List Nat → Nat → Progress → Nat × Progress
  | [], taken, p => (taken, { p with pending := [] })
  | publishedNs :: rest, taken, p =>
    if publishedNs + r.latency ≤ drain then
      takeDue drain rest (taken + 1) (r.take drain publishedNs p)
    else
      (taken, { p with pending := publishedNs :: rest })

def list (activation : Activation) (p : Progress) : Progress :=
  if activation.atNs < r.shownUntil then
    if p.activations.length < shownActivations then
      { p with activations := p.activations ++ [activation] }
    else
      { p with notListed := p.notListed + 1 }
  else
    p

/-- The body of the loop over the subscriber's activations, with the activation
that it may list. -/
def activate (p : Progress) (drain : Nat) : Activation × Progress :=
  let p := r.publishWhile (fun publication => r.before publication drain) p.publications p
  let taken := r.takeDue drain p.pending 0 p
  let activation := ⟨drain, taken.1, taken.2.held⟩
  (activation, r.list activation taken.2)

def initial : Progress where
  publications := slots r.duration r.publisherPeriod
  pending := []
  deliveries := []
  activations := []
  notListed := 0
  dropped := []
  peak := 0
  held := .start
  finalTaken := none

/-- The loop over activations. -/
def activateAll (drains : List Nat) (p : Progress) : Progress :=
  drains.foldl (fun p drain => (r.activate p drain).2) p

end Route

/-- What `_timeline` returns. -/
structure Plan where
  peakMessages : Nat
  deliveries : List Delivery
  droppedMessages : Nat
  firstDroppedNs : List Nat
  activations : List Activation
  activationsNotListed : Nat
  finalTakenNs : Option Nat
  deriving DecidableEq, Repr

namespace Route

variable (r : Route) {t a b : Nat} {p : Progress}

def timeline : Plan :=
  let p := r.activateAll (slots r.duration r.subscriberPeriod) r.initial
  let p := r.publishWhile (fun _ => true) p.publications p
  { peakMessages := p.peak
    deliveries := p.deliveries
    droppedMessages := p.dropped.length
    firstDroppedNs := p.dropped.take shownDeliveries
    activations := p.activations
    activationsNotListed := p.notListed
    finalTakenNs := p.finalTaken }

/-! ## Single activations -/

/-- The state when the activation at `n` subscriber periods starts. -/
def progressAt (n : Nat) : Progress :=
  r.activateAll ((List.range n).map (· * r.subscriberPeriod)) r.initial

/-- The activation at `n` subscriber periods. -/
def activationAt (n : Nat) : Activation :=
  (r.activate (r.progressAt n) (n * r.subscriberPeriod)).1

theorem progressAt_succ (n : Nat) :
    r.progressAt (n + 1) = (r.activate (r.progressAt n) (n * r.subscriberPeriod)).2 := by
  simp [progressAt, activateAll, range_succ]

/-! ## The counters of a route that refuses nothing -/

/-- How many publications come before an activation at `t`. -/
def published (t : Nat) : Nat :=
  if r.publisherFirst then t / r.publisherPeriod + 1
  else (t + (r.publisherPeriod - 1)) / r.publisherPeriod

/-- How many publications are one Latency old at `t`. -/
def reached (t : Nat) : Nat :=
  if r.latency ≤ t then (t - r.latency) / r.publisherPeriod + 1 else 0

/-- How many publications an activation at `t` and those before it take. -/
def visible (t : Nat) : Nat :=
  min (r.published t) (r.reached t)

def publishedBefore : Nat → Nat
  | 0 => 0
  | n + 1 => r.published (n * r.subscriberPeriod)

def takenBefore : Nat → Nat
  | 0 => 0
  | n + 1 => r.visible (n * r.subscriberPeriod)

/-- No publication before an activation finds the route full. -/
def Roomy : Prop :=
  ∀ capacity, r.dropAbove = some capacity → ∀ n, n * r.subscriberPeriod < r.duration →
    r.published (n * r.subscriberPeriod) ≤ capacity + r.takenBefore n

variable {r}

theorem before_iff {publication drain : Nat} : r.before publication drain = true ↔
      publication < drain ∨ publication = drain ∧ r.publisherFirst = true := by
  simp [before]

theorem lt_published_iff {k : Nat} :
    k < r.published t ↔ r.before (k * r.publisherPeriod) t = true := by
  have hpos := r.publisherPeriod_pos
  rw [before_iff, published]
  cases r.publisherFirst with
  | true =>
    rw [if_pos rfl, Nat.lt_succ_iff, Nat.le_div_iff_mul_le hpos]
    simp only [and_true]
    exact Nat.le_iff_lt_or_eq
  | false =>
    rw [if_neg (by simp), ← Nat.succ_le_iff, Nat.le_div_iff_mul_le hpos, Nat.succ_mul]
    simp only [Bool.false_eq_true, and_false, or_false]
    omega

theorem lt_reached_iff {k : Nat} : k < r.reached t ↔ k * r.publisherPeriod + r.latency ≤ t := by
  rw [reached]
  by_cases h : r.latency ≤ t
  · rw [if_pos h, Nat.lt_succ_iff, Nat.le_div_iff_mul_le r.publisherPeriod_pos]
    omega
  · rw [if_neg h]
    omega

theorem lt_visible_iff {k : Nat} :
    k < r.visible t ↔ k < r.published t ∧ k * r.publisherPeriod + r.latency ≤ t := by
  rw [visible, lt_min_iff, lt_reached_iff]

theorem published_mono {u : Nat} (h : t ≤ u) : r.published t ≤ r.published u := by
  refine le_of_forall_lt fun k hk => ?_
  rw [lt_published_iff, before_iff] at hk ⊢
  rcases hk with hlt | ⟨heq, hfirst⟩
  · exact .inl (hlt.trans_le h)
  · rcases Nat.lt_or_eq_of_le (heq.trans_le h) with hlt | heq
    · exact .inl hlt
    · exact .inr ⟨heq, hfirst⟩

theorem visible_mono {u : Nat} (h : t ≤ u) : r.visible t ≤ r.visible u := by
  refine le_of_forall_lt fun k hk => ?_
  rw [lt_visible_iff] at hk ⊢
  exact ⟨hk.1.trans_le (published_mono h), hk.2.trans h⟩

theorem visible_le_published (t : Nat) : r.visible t ≤ r.published t :=
  min_le_left _ _

theorem period_le_of_succ (n : Nat) : n * r.subscriberPeriod ≤ (n + 1) * r.subscriberPeriod :=
  Nat.mul_le_mul_right _ (Nat.le_succ n)

theorem publishedBefore_le (n : Nat) :
    r.publishedBefore n ≤ r.published (n * r.subscriberPeriod) := by
  cases n with
  | zero => exact Nat.zero_le _
  | succ n => exact published_mono (period_le_of_succ n)

theorem takenBefore_le (n : Nat) : r.takenBefore n ≤ r.visible (n * r.subscriberPeriod) := by
  cases n with
  | zero => exact Nat.zero_le _
  | succ n => exact visible_mono (period_le_of_succ n)

theorem takenBefore_le_publishedBefore (n : Nat) : r.takenBefore n ≤ r.publishedBefore n := by
  cases n with
  | zero => exact Nat.le_refl 0
  | succ n => exact visible_le_published _

/-! ## Stretches of publications -/

variable (r) in
/-- The publications from number `a` on, up to number `b`. -/
def stretch (a b : Nat) : List Nat :=
  (List.range' a (b - a)).map (· * r.publisherPeriod)

variable (r) in
/-- How many publications there are. -/
def total : Nat :=
  (r.duration + (r.publisherPeriod - 1)) / r.publisherPeriod

@[simp] theorem stretch_self (a : Nat) : r.stretch a a = [] := by
  simp [stretch]

@[simp] theorem length_stretch (a b : Nat) : (r.stretch a b).length = b - a := by
  simp [stretch]

theorem stretch_cons (h : a < b) :
    r.stretch a b = a * r.publisherPeriod :: r.stretch (a + 1) b := by
  rw [stretch, stretch, show b - a = b - (a + 1) + 1 by omega, range'_succ, map_cons]

theorem stretch_append {c : Nat} (hab : a ≤ b) (hbc : b ≤ c) :
    r.stretch a b ++ r.stretch b c = r.stretch a c := by
  have hsplit : range' a (b - a) ++ range' (a + (b - a)) (c - b) =
      range' a (b - a + (c - b)) := range'_append_1
  rw [show a + (b - a) = b by omega, show b - a + (c - b) = c - a by omega] at hsplit
  rw [stretch, stretch, ← map_append, hsplit, stretch]

theorem initial_publications : r.initial.publications = r.stretch 0 r.total := by
  simp [initial, slots, stretch, total, range_eq_range']

theorem published_le_total (h : t < r.duration) : r.published t ≤ r.total := by
  refine le_of_forall_lt fun k hk => ?_
  rw [lt_published_iff, before_iff] at hk
  rw [total, ← Nat.succ_le_iff, Nat.le_div_iff_mul_le r.publisherPeriod_pos, Nat.succ_mul]
  omega

variable (r) in
/-- The input once so many publications are taken. -/
def heldAfter : Nat → Held
  | 0 => .start
  | taken + 1 =>
    .message (taken * r.publisherPeriod) (taken * r.publisherPeriod + r.publisherPeriod)

theorem publish_of_room
    (h : ∀ capacity, r.dropAbove = some capacity → p.pending.length < capacity) :
    r.publish p t =
      { p with
        pending := p.pending ++ [t]
        peak := max p.peak (p.pending.length + 1) } := by
  rw [publish]
  cases hdrop : r.dropAbove with
  | none => simp
  | some capacity => simpa using h capacity hdrop

/-- A loop that publishes appends a stretch, if there is room for it. -/
theorem publishWhile_stretch (due : Nat → Bool) (hab : a ≤ b) (hb : b ≤ r.total)
    (hdue : ∀ k, due (k * r.publisherPeriod) = true ↔ k < b)
    (hroom : ∀ capacity, r.dropAbove = some capacity → p.pending.length + (b - a) ≤ capacity) :
    (r.publishWhile due (r.stretch a r.total) p).publications = r.stretch b r.total ∧
      (r.publishWhile due (r.stretch a r.total) p).pending = p.pending ++ r.stretch a b ∧
      (r.publishWhile due (r.stretch a r.total) p).held = p.held := by
  induction hn : b - a generalizing a p with
  | zero =>
    obtain rfl : a = b := by omega
    rcases Nat.lt_or_eq_of_le hb with hlt | rfl
    · have hstop : ¬ due (a * r.publisherPeriod) = true := fun h => by simpa using (hdue a).mp h
      rw [stretch_cons hlt, publishWhile, if_neg hstop]
      simp
    · simp [publishWhile]
  | succ n ih =>
    have hlt : a < b := by omega
    have hgo : due (a * r.publisherPeriod) = true := (hdue a).mpr hlt
    have hpublish : r.publish p (a * r.publisherPeriod) = _ :=
      publish_of_room fun capacity hdrop => by have := hroom capacity hdrop; omega
    rw [stretch_cons (hlt.trans_le hb), publishWhile, if_pos hgo, stretch_cons hlt, hpublish]
    obtain ⟨hpublications, hpending, hheld⟩ := ih
      (p := { p with
        pending := p.pending ++ [a * r.publisherPeriod]
        peak := max p.peak (p.pending.length + 1) })
      hlt
      (fun capacity hdrop => by
        have := hroom capacity hdrop
        simp only [length_append, length_singleton]
        omega)
      (by omega)
    exact ⟨hpublications, by rw [hpending]; simp, hheld⟩

/-- A loop that takes from a stretch leaves a stretch. -/
theorem takeDue_stretch {drain v : Nat} (taken : Nat) (hav : a ≤ v) (hvb : v ≤ b)
    (hdue : ∀ k, k < b → (k * r.publisherPeriod + r.latency ≤ drain ↔ k < v))
    (hheld : p.held = r.heldAfter a) :
    (r.takeDue drain (r.stretch a b) taken p).1 = taken + (v - a) ∧
      (r.takeDue drain (r.stretch a b) taken p).2.pending = r.stretch v b ∧
      (r.takeDue drain (r.stretch a b) taken p).2.held = r.heldAfter v ∧
      (r.takeDue drain (r.stretch a b) taken p).2.publications = p.publications := by
  induction hn : v - a generalizing a taken p with
  | zero =>
    obtain rfl : a = v := by omega
    rcases Nat.lt_or_eq_of_le hvb with hlt | rfl
    · have hstop : ¬ a * r.publisherPeriod + r.latency ≤ drain :=
        fun h => by simpa using (hdue a hlt).mp h
      rw [stretch_cons hlt, takeDue, if_neg hstop]
      simp [hheld]
    · simp [takeDue, hheld]
  | succ n ih =>
    have hlt : a < v := by omega
    rw [stretch_cons (hlt.trans_le hvb), takeDue, if_pos ((hdue a (hlt.trans_le hvb)).mpr hlt)]
    obtain ⟨htaken, hpending, hheld, hpublications⟩ :=
      ih (taken + 1) (p := r.take drain (a * r.publisherPeriod) p)
        hlt rfl (by omega)
    exact ⟨by rw [htaken]; omega, hpending, hheld, hpublications⟩

@[simp] theorem list_publications (activation : Activation) (p : Progress) :
    (r.list activation p).publications = p.publications := by
  unfold list
  split_ifs <;> rfl

@[simp] theorem list_pending (activation : Activation) (p : Progress) :
    (r.list activation p).pending = p.pending := by
  unfold list
  split_ifs <;> rfl

@[simp] theorem list_held (activation : Activation) (p : Progress) :
    (r.list activation p).held = p.held := by
  unfold list
  split_ifs <;> rfl

/-- Where the loop stands between two activations. -/
structure Between (r : Route) (n : Nat) (p : Progress) : Prop where
  publications : p.publications = r.stretch (r.publishedBefore n) r.total
  pending : p.pending = r.stretch (r.takenBefore n) (r.publishedBefore n)
  held : p.held = r.heldAfter (r.takenBefore n)

/-- One activation of a route with room. -/
theorem Between.activate {n : Nat} (hroomy : r.Roomy) (hn : n * r.subscriberPeriod < r.duration)
    (h : Between r n p) :
    (r.activate p (n * r.subscriberPeriod)).1 = ⟨n * r.subscriberPeriod,
          r.visible (n * r.subscriberPeriod) - r.takenBefore n,
          r.heldAfter (r.visible (n * r.subscriberPeriod))⟩ ∧
      Between r (n + 1) (r.activate p (n * r.subscriberPeriod)).2 := by
  have hroom : ∀ capacity, r.dropAbove = some capacity →
      p.pending.length + (r.published (n * r.subscriberPeriod) - r.publishedBefore n) ≤
        capacity := by
    intro capacity hdrop
    have hle := hroomy capacity hdrop n hn
    have htaken := r.takenBefore_le_publishedBefore n
    have hpublished := r.publishedBefore_le n
    rw [h.pending, length_stretch]
    omega
  obtain ⟨hpublications, hpending, hheld⟩ :=
    publishWhile_stretch (fun publication => r.before publication (n * r.subscriberPeriod))
      (r.publishedBefore_le n) (published_le_total hn) (fun k => lt_published_iff.symm) hroom
  rw [h.pending, stretch_append (r.takenBefore_le_publishedBefore n) (r.publishedBefore_le n)]
    at hpending
  obtain ⟨htaken, hleft, hinput, hrest⟩ :=
    takeDue_stretch 0 (r.takenBefore_le n) (visible_le_published _)
      (fun k hk => by rw [lt_visible_iff]; exact (and_iff_right hk).symm)
      (hheld.trans h.held)
  simp only [Route.activate, h.publications, hpending]
  refine ⟨by rw [htaken, hinput, Nat.zero_add], ?_, ?_, ?_⟩
  · rw [list_publications, hrest, hpublications]
    rfl
  · rw [list_pending, hleft]
    rfl
  · rw [list_held, hinput]
    rfl

theorem progressAt_between (hroomy : r.Roomy) {n : Nat}
    (hn : ∀ k < n, k * r.subscriberPeriod < r.duration) : Between r n (r.progressAt n) := by
  induction n with
  | zero =>
    refine ⟨initial_publications, ?_, rfl⟩
    simp [progressAt, activateAll, initial, takenBefore, publishedBefore]
  | succ n ih =>
    rw [progressAt_succ]
    exact ((ih fun k hk => hn k (Nat.lt_succ_of_lt hk)).activate hroomy (hn n (by omega))).2

/-- What an activation of a route with room takes and steps on. -/
theorem activationAt_eq (hroomy : r.Roomy) {n : Nat} (hn : n * r.subscriberPeriod < r.duration) :
    r.activationAt n = ⟨n * r.subscriberPeriod,
        r.visible (n * r.subscriberPeriod) - r.takenBefore n,
        r.heldAfter (r.visible (n * r.subscriberPeriod))⟩ := by
  have hbefore : ∀ k < n, k * r.subscriberPeriod < r.duration := fun k hk =>
    (Nat.mul_le_mul_right _ hk.le).trans_lt hn
  exact ((progressAt_between hroomy hbefore).activate hroomy hn).1

end Route
end SilFormal.Coupling
