import SilFormal.Can.Transmission

/-!
# The requests of one terminal

Where the requests that a terminal committed are: each of them is in the queue,
or it left the queue and is settled, in the retry slot or on the wire.  A
request counts its attempts on the way and is otherwise the one that was
committed.
-/

namespace SilFormal.Can

open List

/-- The request as it was committed, before any attempt failed. -/
def Request.asCommitted (request : Request) : Request :=
  { request with attempt := 1 }

theorem Request.asCommitted_of_attempt {request : Request} (h : request.attempt = 1) :
    request.asCommitted = request := by
  simp only [asCommitted, ← h]

namespace Node

variable {fate : Fate}

/-- The requests of a terminal that met a fate, in order. -/
def requests (fate : Fate) (node : Node) : List Request :=
  (node.history.filter fun event => event.fate = fate).map NodeEvent.request

/-- The requests of a terminal that are confirmed, lost or exhausted. -/
def settled (node : Node) : Multiset Request :=
  ↑(node.requests .confirmed) + ↑(node.requests .lost) + ↑(node.requests .exhausted)

theorem requests_of_history {node node' : Node} {events : List NodeEvent}
    (h : node'.history = node.history ++ events) :
    node'.requests fate = node.requests fate ++ (events.filter fun event => event.fate = fate).map
        NodeEvent.request := by
  simp only [requests, h, filter_append, map_append]

/-- One more event in the history. -/
theorem requests_snoc {other : Fate} {node node' : Node} {request : Request}
    (h : node'.history = node.history ++ [⟨fate, request⟩]) :
    node'.requests other = node.requests other ++ if fate = other then [request] else [] := by
  rw [requests_of_history h]
  by_cases hfate : fate = other
  · simp [hfate]
  · simp [hfate]

theorem requests_congr {node node' : Node} (h : node'.history = node.history) :
    node'.requests fate = node.requests fate := by
  simp only [requests, h]

theorem Contended.committed_eq {chosen : Request} {node node' : Node} {taken : Option Request}
    (h : node.Contended chosen node' taken) :
    node'.requests .committed = node.requests .committed := by
  have htake : ∀ request, node.head? = some request →
      node.takeHead.requests .committed = node.requests .committed := by
    intro request hhead
    rcases takeHead_cases hhead with ⟨_, htake⟩ | ⟨_, _, _, htake⟩
    · exact requests_congr (by rw [htake])
    · rw [requests_snoc (show node.takeHead.history = node.history ++ _ by rw [htake])]
      simp
  cases h with
  | idle => rfl
  | transmits request hhead => exact htake request hhead
  | lost request hhead =>
    rw [← htake request hhead]
    exact (requests_snoc rfl).trans (by simp)
  | waits => rfl

theorem Completed.committed_eq {retryLimit : Nat} {done : Transfer} {terminal : Terminal}
    {node node' : Node} (h : node.Completed retryLimit done terminal node') :
    node'.requests .committed = node.requests .committed := by
  cases h with
  | confirmed => exact (requests_snoc rfl).trans (by simp)
  | received => rfl
  | bystander => rfl
  | retried => rfl
  | exhausted => exact (requests_snoc rfl).trans (by simp)

/-- The accounts of a terminal with the request that it has on the wire. -/
structure Accounted (retryLimit : Nat) (wire : Option Request) (node : Node) : Prop where
  fifo : node.requests .committed = node.requests .dequeued ++ node.queue
  balance : (↑(node.requests .dequeued) : Multiset Request) =
    (node.settled + ↑node.retry.toList + ↑wire.toList).map Request.asCommitted
  exclusive : node.retry = none ∨ wire = none
  queued : ∀ request ∈ node.queue, request.attempt = 1
  attempts : ∀ request, node.retry = some request ∨ wire = some request →
    1 ≤ request.attempt ∧ request.attempt ≤ retryLimit + 1
  past : ∀ event ∈ node.history, 1 ≤ event.request.attempt ∧ event.request.attempt ≤ retryLimit + 1
  exhausted : ∀ request ∈ node.requests .exhausted, request.attempt = retryLimit + 1

namespace Accounted

variable {retryLimit : Nat} {wire : Option Request} {node node' : Node} {request : Request}

theorem initial (retryLimit : Nat) (node : Node) (hqueue : node.queue = [])
    (hretry : node.retry = none) (hhistory : node.history = []) :
    node.Accounted retryLimit none := by
  have hnone : ∀ fate, node.requests fate = [] := by
    intro fate
    simp [requests, hhistory]
  exact {
    fifo := by simp [hnone, hqueue]
    balance := by simp [hnone, settled, hretry]
    exclusive := .inl hretry
    queued := by simp [hqueue]
    attempts := by simp [hretry]
    past := by simp [hhistory]
    exhausted := by simp [hnone] }

/-- The accounts only look at the queue, the retry slot and the history. -/
theorem congr (h : node.Accounted retryLimit wire) (hqueue : node'.queue = node.queue)
    (hretry : node'.retry = node.retry) (hhistory : node'.history = node.history) :
    node'.Accounted retryLimit wire := by
  have hsame : ∀ fate, node'.requests fate = node.requests fate := fun _ => requests_congr hhistory
  exact {
    fifo := by rw [hsame, hsame, hqueue, h.fifo]
    balance := by simp only [settled, hsame, hretry, h.balance]
    exclusive := hretry ▸ h.exclusive
    queued := hqueue ▸ h.queued
    attempts := hretry ▸ h.attempts
    past := hhistory ▸ h.past
    exhausted := hsame _ ▸ h.exhausted }

/-- Committed requests enter the accounts at the end of the queue. -/
theorem enqueued (h : node.Accounted retryLimit wire) {staged : List Request}
    (hfresh : ∀ request ∈ staged, request.attempt = 1) (hqueue : node'.queue = node.queue ++ staged)
    (hretry : node'.retry = node.retry)
    (hhistory : node'.history = node.history ++ staged.map (NodeEvent.mk .committed)) :
    node'.Accounted retryLimit wire := by
  have hcommitted : node'.requests .committed = node.requests .committed ++ staged := by
    rw [requests_of_history hhistory]
    simp [filter_map, Function.comp_def]
  have hother : ∀ fate, fate ≠ Fate.committed → node'.requests fate = node.requests fate := by
    intro fate hfate
    rw [requests_of_history hhistory]
    simp [filter_map, Ne.symm hfate]
  exact {
    fifo := by rw [hcommitted, hother _ (by simp), h.fifo, hqueue, append_assoc]
    balance := by
      simp only [settled, hother .dequeued (by simp), hother .confirmed (by simp),
        hother .lost (by simp), hother .exhausted (by simp), hretry]
      exact h.balance
    exclusive := hretry ▸ h.exclusive
    queued := hqueue ▸ forall_mem_append.mpr ⟨h.queued, hfresh⟩
    attempts := hretry ▸ h.attempts
    past := by
      rw [hhistory]
      refine forall_mem_append.mpr ⟨h.past, forall_mem_map.mpr fun request hnew => ?_⟩
      simp only [hfresh request hnew]
      omega
    exhausted := hother .exhausted (by simp) ▸ h.exhausted }

/-- The head of a terminal moves to the wire. -/
theorem takeHead (h : node.Accounted retryLimit none) (hhead : node.head? = some request) :
    node.takeHead.Accounted retryLimit (some request) := by
  have hbalance := h.balance
  rcases takeHead_cases hhead with ⟨hretry, htake⟩ | ⟨hretry, rest, hqueue, htake⟩
  · have hbounds := h.attempts request (.inl hretry)
    simp only [hretry]
      at hbalance
    rw [htake]
    refine { h with
      balance := hbalance.trans (by simp [settled, requests])
      exclusive := .inl rfl
      attempts := ?_ }
    rintro other (⟨⟨⟩⟩ | ⟨⟨⟩⟩)
    exact hbounds
  · have hhistory : node.takeHead.history = node.history ++ [⟨.dequeued, request⟩] := by
      rw [htake]
    have hattempt : request.attempt = 1 := h.queued request (by simp [hqueue])
    have hsettled : node.takeHead.settled = node.settled := by
      simp [settled, requests_snoc hhistory]
    exact {
      fifo := by
        rw [requests_snoc hhistory, requests_snoc hhistory, h.fifo, hqueue]
        simp [htake]
      balance := by
        rw [requests_snoc hhistory, ← Multiset.coe_add, hbalance, hsettled]
        simp [htake, hretry, Request.asCommitted_of_attempt hattempt]
      exclusive := .inl (by rw [htake]; exact hretry)
      queued := by
        intro other hmem
        rw [htake] at hmem
        exact h.queued other (by rw [hqueue]; exact mem_cons_of_mem _ hmem)
      attempts := by
        rw [htake]
        rintro other (hretried | ⟨⟨⟩⟩)
        · exact h.attempts other (.inl hretried)
        · omega
      past := by
        rw [hhistory]
        exact forall_mem_append.mpr ⟨h.past, by simp [hattempt]⟩
      exhausted := by
        rw [requests_snoc hhistory]
        simpa using h.exhausted }

theorem settle {fate : Fate} (h : node.Accounted retryLimit (some request))
    (hfate : fate = .confirmed ∨ fate = .lost ∨ fate = .exhausted)
    (hlast : fate = .exhausted → request.attempt = retryLimit + 1)
    (hqueue : node'.queue = node.queue) (hretry : node'.retry = node.retry)
    (hhistory : node'.history = node.history ++ [⟨fate, request⟩]) :
    node'.Accounted retryLimit none := by
  have hbounds := h.attempts request (.inr rfl)
  have hsum : node'.settled = node.settled + {request} := by
    simp only [settled, requests_snoc hhistory, ← Multiset.coe_add]
    rcases hfate with rfl | rfl | rfl
    · simp [-Multiset.coe_add]
      abel
    · simp [-Multiset.coe_add]
      abel
    · simp [-Multiset.coe_add, add_assoc]
  have hkept : node'.requests .committed = node.requests .committed ∧
      node'.requests .dequeued = node.requests .dequeued := by
    rw [requests_snoc hhistory, requests_snoc hhistory]
    rcases hfate with rfl | rfl | rfl
    · simp
    · simp
    · simp
  exact {
    fifo := by rw [hkept.1, hkept.2, hqueue, h.fifo]
    balance := by
      rw [hkept.2, h.balance, hsum, hretry]
      congr 1
      abel
    exclusive := .inr rfl
    queued := hqueue ▸ h.queued
    attempts := by
      rw [hretry]
      rintro other (hretried | ⟨⟨⟩⟩)
      exact h.attempts other (.inl hretried)
    past := by
      rw [hhistory]
      exact forall_mem_append.mpr ⟨h.past, by simpa using hbounds⟩
    exhausted := by
      rw [requests_snoc hhistory]
      refine forall_mem_append.mpr ⟨h.exhausted, ?_⟩
      split_ifs with hexhausted
      · simpa using hlast hexhausted
      · simp }

/-- Arbitration moves at most the head of a terminal. -/
theorem contended {chosen : Request} {taken : Option Request} (h : node.Accounted retryLimit none)
    (hcontended : node.Contended chosen node' taken) : node'.Accounted retryLimit taken := by
  cases hcontended with
  | idle => exact h
  | transmits request hhead => exact h.takeHead hhead
  | lost request hhead =>
    exact (h.takeHead hhead).settle (.inr (.inl rfl)) (by simp) rfl rfl rfl
  | waits => exact h

/-- The end of a frame settles the request on the wire or makes it a retry. -/
theorem completed {done : Transfer} {terminal : Terminal}
    (h : node.Accounted retryLimit (done.requests terminal))
    (hcompleted : node.Completed retryLimit done terminal node') :
    node'.Accounted retryLimit none := by
  cases hcompleted with
  | confirmed request _ hrequest =>
    rw [hrequest] at h
    exact h.settle (.inl rfl) (by simp) rfl rfl rfl
  | received _ hrequest =>
    rw [hrequest] at h
    exact h.congr rfl rfl rfl
  | bystander _ hrequest =>
    rw [hrequest] at h
    exact h.congr rfl rfl rfl
  | exhausted request _ hrequest hattempt =>
    rw [hrequest] at h
    have hbounds := h.attempts request (.inr rfl)
    exact h.settle (.inr (.inr rfl)) (fun _ => by omega) rfl rfl rfl
  | retried request _ hrequest hattempt hfree =>
    rw [hrequest] at h
    have hbalance := h.balance
    simp only [hfree, Option.toList_some]
      at hbalance
    refine { h with
      balance := hbalance.trans (by simp [settled, requests, Request.asCommitted])
      exclusive := .inr rfl
      attempts := ?_ }
    rintro other (⟨⟨⟩⟩ | ⟨⟨⟩⟩)
    simp only
    omega

/-- Whatever waits or is on the wire was committed, up to its attempts. -/
theorem asCommitted_mem (h : node.Accounted retryLimit wire)
    (hrequest : request ∈ node.pending ∨ wire = some request) :
    request.asCommitted ∈ node.requests .committed := by
  rw [h.fifo, mem_append]
  have hdequeued : request ∈ node.settled + ↑node.retry.toList + ↑wire.toList →
      request.asCommitted ∈ node.requests .dequeued := by
    intro hmem
    rw [← Multiset.mem_coe, h.balance]
    exact Multiset.mem_map_of_mem _ hmem
  rcases hrequest with hpending | hwire
  · rcases mem_append.mp hpending with hretry | hqueue
    · exact .inl (hdequeued (by simp [hretry]))
    · refine .inr ?_
      rw [Request.asCommitted_of_attempt (h.queued request hqueue)]
      exact hqueue
  · exact .inl (hdequeued (by simp [hwire]))

theorem conserved (h : node.Accounted retryLimit wire) :
    (↑(node.requests .committed) : Multiset Request) =
      (node.settled + ↑node.queue + ↑node.retry.toList + ↑wire.toList).map
        Request.asCommitted := by
  have hqueue : node.queue.map Request.asCommitted = node.queue := by
    refine (map_congr_left fun request hrequest => ?_).trans (map_id _)
    exact Request.asCommitted_of_attempt (h.queued request hrequest)
  rw [h.fifo, ← Multiset.coe_add, h.balance]
  simp only [Multiset.map_add, Multiset.map_coe, hqueue]
  abel

end Accounted

end Node

end SilFormal.Can
