import SilFormal.Kernel.Interceptor

/-!
# Subscriber routes

One subscriber's view of one Channel (`SubscriberRoute` in `engine.hpp`): a
FIFO in publish order whose front becomes visible according to the declared
latency.  Only the front is ever inspected, so a delayed Message holds back
the ones published behind it.
-/

namespace SilFormal.Kernel

open List

/-- `PendingMessage`; `globalSeq` is the total publish order across Channels. -/
structure PendingMessage where
  publishNs : Nat
  globalSeq : Nat
  bytes : Bytes
deriving DecidableEq, Repr

/-- `OverflowPolicy`. -/
inductive OverflowPolicy
  | fail
  | dropNewest
deriving DecidableEq, Repr

/-- `SubscriberRoute::PushResult`. -/
inductive PushResult
  | enqueued
  | droppedNewest
  | overflowFailure
deriving DecidableEq, Repr

/-- `SubscriberRoute`; its owner and its Channel are the key under which the
engine keeps it. -/
structure SubscriberRoute where
  latencyNs : Option Nat
  capacity : Option Nat
  overflow : OverflowPolicy
  pending : List PendingMessage
deriving DecidableEq, Repr

/-- The visibility of one Message at an instant: strictly after its publish
time without a declared latency, from `publish + L` on with one.  A sum the
clock cannot represent is never visible. -/
def visible (latencyNs : Option Nat) (nowNs publishNs : Nat) : Bool :=
  match latencyNs with
  | none => decide (publishNs < nowNs)
  | some latency =>
    match virtualTimeAfter publishNs latency with
    | none => false
    | some visibleNs => decide (visibleNs ≤ nowNs)

/-- Visibility in unbounded naturals. -/
theorem visible_iff {latencyNs : Option Nat} {nowNs publishNs : Nat} (hnow : nowNs ≤ uint64Max) :
    visible latencyNs nowNs publishNs = true ↔
      match latencyNs with
      | none => publishNs < nowNs
      | some latency => publishNs + latency ≤ nowNs := by
  cases latencyNs with
  | none => simp [visible]
  | some latency =>
    show _ ↔ publishNs + latency ≤ nowNs
    rw [← exists_virtualTimeAfter_le_iff hnow]
    cases h : virtualTimeAfter publishNs latency with
    | none => simp [visible, h]
    | some t => simp [visible, h]

/-- Without same-slot feedthrough nothing published from `nowNs` on is
visible at `nowNs`. -/
theorem not_visible_of_le {latencyNs : Option Nat} {nowNs publishNs : Nat}
    (hlat : latencyNs ≠ some 0) (hle : nowNs ≤ publishNs) :
    visible latencyNs nowNs publishNs = false := by
  cases latencyNs with
  | none =>
    simp only [visible, decide_eq_false_iff_not]
    omega
  | some latency =>
    have hpos : latency ≠ 0 := fun h => hlat (by rw [h])
    cases hv : virtualTimeAfter publishNs latency with
    | none => simp [visible, hv]
    | some t =>
      have ht := le_of_virtualTimeAfter hv
      simp only [visible, hv, decide_eq_false_iff_not]
      omega

namespace SubscriberRoute

variable {route : SubscriberRoute} {nowNs : Nat} {m : PendingMessage} {rest : List PendingMessage}

/-- `depth`. -/
def depth (route : SubscriberRoute) : Nat :=
  route.pending.length

/-- `visible_at`. -/
def visibleAt (route : SubscriberRoute) (nowNs : Nat) : Bool :=
  match route.pending with
  | [] => false
  | front :: _ => visible route.latencyNs nowNs front.publishNs

/-- `front_seq`, where there is a front. -/
def frontSeq (route : SubscriberRoute) : Option Nat :=
  route.pending.head?.map PendingMessage.globalSeq

/-- `pop`: the route without its front. -/
def pop (route : SubscriberRoute) : SubscriberRoute :=
  { route with pending := route.pending.tail }

/-- Whether a push finds the route at its capacity. -/
def full (route : SubscriberRoute) : Bool :=
  match route.capacity with
  | none => false
  | some capacity => decide (route.depth ≥ capacity)

/-- `push`. -/
def push (route : SubscriberRoute) (message : PendingMessage) : PushResult × SubscriberRoute :=
  if route.full then
    match route.overflow with
    | .dropNewest => (.droppedNewest, route)
    | .fail => (.overflowFailure, route)
  else
    (.enqueued, { route with pending := route.pending ++ [message] })

/-- `Engine::take` on one route: the front, when it is visible. -/
def take (route : SubscriberRoute) (nowNs : Nat) : Option (PendingMessage × SubscriberRoute) :=
  match route.pending with
  | [] => none
  | front :: _ => if route.visibleAt nowNs then some (front, route.pop) else none

/-- The pending Messages a drain at `nowNs` gives back. -/
def ready (route : SubscriberRoute) (nowNs : Nat) : List PendingMessage :=
  route.pending.takeWhile fun m => visible route.latencyNs nowNs m.publishNs

/-- The pending Messages a drain at `nowNs` leaves. -/
def waiting (route : SubscriberRoute) (nowNs : Nat) : List PendingMessage :=
  route.pending.dropWhile fun m => visible route.latencyNs nowNs m.publishNs

/-- The route after a drain at `nowNs`. -/
def drained (route : SubscriberRoute) (nowNs : Nat) : SubscriberRoute :=
  { route with pending := route.waiting nowNs }

theorem ready_append_waiting (route : SubscriberRoute) (nowNs : Nat) :
    route.ready nowNs ++ route.waiting nowNs = route.pending :=
  takeWhile_append_dropWhile

theorem visibleAt_iff_ready (route : SubscriberRoute) (nowNs : Nat) :
    route.visibleAt nowNs = true ↔ route.ready nowNs ≠ [] := by
  unfold visibleAt ready
  cases h : route.pending with
  | nil => simp
  | cons front rest =>
    by_cases hv : visible route.latencyNs nowNs front.publishNs = true
    · simp [hv]
    · simp [hv]

/-- A drained message is the head of the ready ones; the rest stays ready. -/
theorem take_eq_some_iff {route' : SubscriberRoute} : route.take nowNs = some (m, route') ↔
      ∃ rest, route.ready nowNs = m :: rest ∧ route' = route.pop := by
  unfold take ready visibleAt
  cases h : route.pending with
  | nil => simp
  | cons front rest =>
    by_cases hv : visible route.latencyNs nowNs front.publishNs = true
    · simp only [hv, if_true, takeWhile_cons, Option.some.injEq, Prod.mk.injEq, cons.injEq]
      constructor
      · rintro ⟨rfl, rfl⟩
        exact ⟨_, ⟨rfl, rfl⟩, rfl⟩
      · rintro ⟨_, ⟨rfl, _⟩, rfl⟩
        exact ⟨rfl, rfl⟩
    · simp [hv]

theorem take_eq_none_iff : route.take nowNs = none ↔ route.ready nowNs = [] := by
  unfold take ready visibleAt
  cases h : route.pending with
  | nil => simp
  | cons front rest =>
    by_cases hv : visible route.latencyNs nowNs front.publishNs = true
    · simp [hv]
    · simp [hv]

theorem ready_pop (h : route.ready nowNs = m :: rest) : route.pop.ready nowNs = rest := by
  unfold ready pop at *
  cases hp : route.pending with
  | nil => simp [hp] at h
  | cons front tail =>
    rw [hp, takeWhile_cons] at h
    split_ifs at h
    injection h

theorem waiting_pop (h : route.ready nowNs = m :: rest) :
    route.pop.waiting nowNs = route.waiting nowNs := by
  unfold ready at h
  unfold waiting pop
  cases hp : route.pending with
  | nil => simp [hp] at h
  | cons front tail =>
    rw [hp, takeWhile_cons] at h
    split_ifs at h with hv
    simp [hv]

theorem drained_pop (h : route.ready nowNs = m :: rest) :
    route.pop.drained nowNs = route.drained nowNs := by
  unfold drained
  rw [waiting_pop h]
  rfl

theorem drained_of_ready_nil (h : route.ready nowNs = []) : route.drained nowNs = route := by
  have hsplit := route.ready_append_waiting nowNs
  rw [h, nil_append] at hsplit
  unfold drained
  rw [hsplit]

theorem ready_length_le_depth (route : SubscriberRoute) (nowNs : Nat) :
    (route.ready nowNs).length ≤ route.depth := by
  have hsplit := congrArg length (route.ready_append_waiting nowNs)
  rw [length_append] at hsplit
  unfold depth
  omega

@[simp] theorem pop_latencyNs (route : SubscriberRoute) :
    route.pop.latencyNs = route.latencyNs := by
  rfl

@[simp] theorem pop_capacity (route : SubscriberRoute) : route.pop.capacity = route.capacity := by
  rfl

@[simp] theorem pop_overflow (route : SubscriberRoute) : route.pop.overflow = route.overflow := by
  rfl

/-- A push only touches the queue. -/
theorem push_static (route : SubscriberRoute) (m : PendingMessage) :
    (route.push m).2.latencyNs = route.latencyNs ∧ (route.push m).2.capacity = route.capacity ∧
      (route.push m).2.overflow = route.overflow := by
  unfold push
  split_ifs
  · cases h : route.overflow <;> simp [h]
  · exact ⟨rfl, rfl, rfl⟩

theorem push_of_not_full (h : route.full = false) (m : PendingMessage) :
    route.push m = (.enqueued, { route with pending := route.pending ++ [m] }) := by
  simp [push, h]

theorem push_of_full (h : route.full = true) (m : PendingMessage) :
    (route.push m).2 = route ∧ (route.push m).1 ≠ .enqueued := by
  unfold push
  rw [if_pos h]
  cases route.overflow <;> exact ⟨rfl, by simp⟩

theorem full_of_capacity_none (h : route.capacity = none) : route.full = false := by
  simp [full, h]

end SubscriberRoute

end SilFormal.Kernel
