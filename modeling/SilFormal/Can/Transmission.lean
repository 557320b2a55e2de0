import SilFormal.Can.BusLemmas

/-!
# What arbitration and completion do

The calls that move requests between the queues, the wire and the retry slots,
terminal by terminal.
-/

namespace SilFormal.Can

open Fallible List

namespace Node

variable {node node' : Node} {request chosen : Request} {taken : Option Request} {retryLimit : Nat}
    {done : Transfer} {terminal : Terminal}

/-- Taking the head of a terminal empties its retry slot or shortens its queue. -/
theorem takeHead_cases (h : node.head? = some request) :
    (node.retry = some request ∧ node.takeHead = { node with retry := none }) ∨
      (node.retry = none ∧ ∃ rest, node.queue = request :: rest ∧
        node.takeHead = { node with
          queue := rest, history := node.history ++ [⟨.dequeued, request⟩] }) := by
  simp only [head?] at h
  cases hretry : node.retry with
  | some retry =>
    rw [hretry] at h
    cases h
    refine .inl ⟨rfl, ?_⟩
    simp only [takeHead, hretry]
  | none =>
    simp only [hretry] at h
    cases hqueue : node.queue with
    | nil =>
      rw [hqueue] at h
      cases h
    | cons first rest =>
      rw [hqueue] at h
      cases h
      refine .inr ⟨rfl, rest, rfl, ?_⟩
      simp only [takeHead, hretry, hqueue, note]

@[simp] theorem takeHead_formatError (node : Node) :
    node.takeHead.formatError = node.formatError := by
  simp only [takeHead]
  split
  · rfl
  · split <;> rfl

@[simp] theorem takeHead_output (node : Node) : node.takeHead.output = node.output := by
  simp only [takeHead]
  split
  · rfl
  · split <;> rfl

@[simp] theorem takeHead_notification (node : Node) :
    node.takeHead.notification = node.notification := by
  simp only [takeHead]
  split
  · rfl
  · split <;> rfl

/-- The requests of a terminal that wait for an arbitration, the head first. -/
def pending (node : Node) : List Request :=
  node.retry.toList ++ node.queue

theorem head?_eq (node : Node) : node.head? = node.pending.head? := by
  simp only [head?, pending]
  cases node.retry with
  | some retry => rfl
  | none => rfl

theorem head?_eq_none : node.head? = none ↔ node.pending = [] := by
  rw [head?_eq, head?_eq_none_iff]

theorem pending_eq_cons (h : node.head? = some request) :
    node.pending = request :: node.takeHead.pending := by
  rcases takeHead_cases h with ⟨hretry, htake⟩ | ⟨hretry, rest, hqueue, htake⟩
  · simp [pending, htake, hretry]
  · simp [pending, htake, hretry, hqueue]

/-- A terminal after the loss of its head. -/
def discarding (request : Request) (node : Node) : Node :=
  { node.takeHead.note .lost request with
    notification := node.takeHead.notification ++
      identifierOperation arbitrationLostCode request.id }

/-- What arbitration does with one terminal, and the request it then transmits. -/
inductive Contended (chosen : Request) (node : Node) : Node → Option Request → Prop
  | idle (hhead : node.head? = none) : Contended chosen node node none
  | transmits (request : Request) (hhead : node.head? = some request)
      (hid : request.id = chosen.id) (hop : request.operation = chosen.operation) :
      Contended chosen node node.takeHead (some request)
  | lost (request : Request) (hhead : node.head? = some request)
      (hid : request.id ≠ chosen.id) (hdiscards : node.discardsOnLoss = true) :
      Contended chosen node (node.discarding request) none
  | waits (request : Request) (hhead : node.head? = some request)
      (hid : request.id ≠ chosen.id) (hdiscards : node.discardsOnLoss = false) :
      Contended chosen node node none

theorem contend_eq_ok_iff {out : Node × Option Request} :
    node.contend chosen = .ok out ↔ node.Contended chosen out.1 out.2 := by
  obtain ⟨node', taken⟩ := out
  constructor
  · intro h
    simp only [contend] at h
    cases hhead : node.head? with
    | none =>
      simp only [hhead] at h
      cases h
      exact .idle hhead
    | some request =>
      simp only [hhead] at h
      split at h
      · rename_i hid
        split at h
        · rename_i hop
          cases h
          exact .transmits request hhead hid hop
        · cases h
      · rename_i hid
        split at h
        · rename_i hdiscards
          cases h
          exact .lost request hhead hid hdiscards
        · rename_i hdiscards
          cases h
          exact .waits request hhead hid (by simpa using hdiscards)
  · intro h
    simp only at h
    cases h with
    | idle hhead => simp only [contend, hhead]
    | transmits request hhead hid hop => simp only [contend, hhead, if_pos hid, if_pos hop]
    | lost request hhead hid hdiscards =>
      simp only [contend, hhead, if_neg hid, hdiscards]
      rfl
    | waits request hhead hid hdiscards =>
      simp only [contend, hhead, if_neg hid, hdiscards, Bool.false_eq_true, if_false]

/-- A terminal can contend unless its head has the identifier of the winner and
another operation. -/
theorem exists_contended (hsame : ∀ request, node.head? = some request → request.id = chosen.id →
      request.operation = chosen.operation) : ∃ node' taken, node.Contended chosen node' taken := by
  cases hhead : node.head? with
  | none => exact ⟨_, _, .idle hhead⟩
  | some request =>
    by_cases hid : request.id = chosen.id
    · exact ⟨_, _, .transmits request hhead hid (hsame request hhead hid)⟩
    · cases hdiscards : node.discardsOnLoss with
      | true => exact ⟨_, _, .lost request hhead hid hdiscards⟩
      | false => exact ⟨_, _, .waits request hhead hid hdiscards⟩

/-- A head with the identifier of the winner is transmitted. -/
theorem Contended.taken_of_id (h : node.Contended chosen node' taken)
    (hhead : node.head? = some request) (hid : request.id = chosen.id) :
    taken = some request ∧ request.operation = chosen.operation := by
  cases h with
  | idle hnone => cases hnone.symm.trans hhead
  | transmits other hother _ hop =>
    cases hother.symm.trans hhead
    exact ⟨rfl, hop⟩
  | lost other hother hne =>
    cases hother.symm.trans hhead
    exact absurd hid hne
  | waits other hother hne =>
    cases hother.symm.trans hhead
    exact absurd hid hne

/-- Arbitration looks at the identifier and the operation of the winner only. -/
theorem Contended.congr {chosen' : Request} (hid : chosen'.id = chosen.id)
    (hop : chosen'.operation = chosen.operation) (h : node.Contended chosen node' taken) :
    node.Contended chosen' node' taken := by
  cases h with
  | idle hhead => exact .idle hhead
  | transmits request hhead hid' hop' =>
    exact .transmits request hhead (hid'.trans hid.symm) (hop'.trans hop.symm)
  | lost request hhead hid' hdiscards => exact .lost request hhead (hid.symm ▸ hid') hdiscards
  | waits request hhead hid' hdiscards => exact .waits request hhead (hid.symm ▸ hid') hdiscards

/-- The requests of a terminal before an arbitration are those it transmits or
loses and those that still wait. -/
theorem Contended.pending_eq (h : node.Contended chosen node' taken) :
    (taken = none ∧ node'.pending = node.pending) ∨
      ∃ request, node.head? = some request ∧ node.pending = request :: node'.pending ∧
        (taken = none ∨ taken = some request) := by
  cases h with
  | idle => exact .inl ⟨rfl, rfl⟩
  | transmits request hhead => exact .inr ⟨request, hhead, pending_eq_cons hhead, .inr rfl⟩
  | lost request hhead => exact .inr ⟨request, hhead, pending_eq_cons hhead, .inl rfl⟩
  | waits => exact .inl ⟨rfl, rfl⟩

/-- Arbitration leaves the outputs and the reports of Format Errors alone. -/
theorem Contended.frame (h : node.Contended chosen node' taken) :
    node'.formatError = node.formatError ∧ node'.output = node.output := by
  cases h with
  | idle => exact ⟨rfl, rfl⟩
  | transmits => exact ⟨node.takeHead_formatError, node.takeHead_output⟩
  | lost => exact ⟨node.takeHead_formatError, node.takeHead_output⟩
  | waits => exact ⟨rfl, rfl⟩

/-- Arbitration writes at most one notice. -/
theorem Contended.notification_cases (h : node.Contended chosen node' taken) :
    node'.notification = node.notification ∨ ∃ id, node'.notification =
        node.notification ++ identifierOperation arbitrationLostCode id := by
  cases h with
  | idle => exact .inl rfl
  | transmits => exact .inl node.takeHead_notification
  | lost request => exact .inr ⟨request.id, by rw [discarding, takeHead_notification]⟩
  | waits => exact .inl rfl

theorem Contended.queue_length_le (h : node.Contended chosen node' taken) :
    node'.queue.length ≤ node.queue.length := by
  have htake : ∀ request, node.head? = some request →
      node.takeHead.queue.length ≤ node.queue.length := by
    intro request hhead
    rcases takeHead_cases hhead with ⟨_, htake⟩ | ⟨_, rest, hqueue, htake⟩
    · rw [htake]
    · rw [htake, hqueue]
      simp
  cases h with
  | idle => exact le_refl _
  | transmits request hhead => exact htake request hhead
  | lost request hhead => exact htake request hhead
  | waits => exact le_refl _

/-- The Bus Error that a terminal is sent at the end of a failed frame. -/
def errorOutput (done : Transfer) (terminal : Terminal) : Bytes :=
  busErrorOperation (u32 done.operation 8) (decide (some terminal = done.primaryErrorNode))
    (decide (some terminal = done.primaryErrorNode))

/-- What the end of a frame does with one terminal. -/
inductive Completed (retryLimit : Nat) (done : Transfer) (terminal : Terminal) (node : Node) :
    Node → Prop
  | confirmed (request : Request) (hok : done.transmissionError = false)
      (hrequest : done.requests terminal = some request) :
      Completed retryLimit done terminal node
        { node with
          output := node.notification ++ identifierOperation confirmCode (u32 done.operation 8)
          notification := []
          history := node.history ++ [⟨.confirmed, request⟩] }
  | received (hok : done.transmissionError = false)
      (hrequest : done.requests terminal = none) :
      Completed retryLimit done terminal node
        { node with
          output := node.notification ++
            if done.suppressedReceiver = some terminal then [] else done.operation
          notification := [] }
  | bystander (herror : done.transmissionError = true)
      (hrequest : done.requests terminal = none) :
      Completed retryLimit done terminal node
        { node with
          output := node.notification ++ errorOutput done terminal
          notification := [] }
  | retried (request : Request) (herror : done.transmissionError = true)
      (hrequest : done.requests terminal = some request)
      (hattempt : request.attempt ≤ retryLimit) (hfree : node.retry = none) :
      Completed retryLimit done terminal node
        { node with
          output := node.notification ++ errorOutput done terminal
          notification := []
          retry := some { request with attempt := request.attempt + 1 } }
  | exhausted (request : Request) (herror : done.transmissionError = true)
      (hrequest : done.requests terminal = some request)
      (hattempt : retryLimit < request.attempt) :
      Completed retryLimit done terminal node
        { node with
          output := node.notification ++ errorOutput done terminal
          notification := []
          history := node.history ++ [⟨.exhausted, request⟩] }

/-- The end of a frame adds at most the retry to the requests that wait. -/
theorem Completed.pending_cases (h : node.Completed retryLimit done terminal node') :
    node'.pending = node.pending ∨
      ∃ request, done.requests terminal = some request ∧ done.transmissionError = true ∧
        request.attempt ≤ retryLimit ∧
        node'.pending = { request with attempt := request.attempt + 1 } :: node.pending := by
  cases h with
  | confirmed => exact .inl rfl
  | received => exact .inl rfl
  | bystander => exact .inl rfl
  | retried request herror hrequest hattempt hfree =>
    refine .inr ⟨request, hrequest, herror, hattempt, ?_⟩
    simp [pending, hfree]
  | exhausted => exact .inl rfl

/-- The end of a frame is possible for a terminal that holds no retry of the
request it has on the wire. -/
theorem exists_completed (retryLimit : Nat) (done : Transfer) (terminal : Terminal) (node : Node)
    (hfree : node.retry = none ∨ done.requests terminal = none) :
    ∃ node', node.Completed retryLimit done terminal node' := by
  cases herror : done.transmissionError with
  | false =>
    cases hrequest : done.requests terminal with
    | none => exact ⟨_, .received herror hrequest⟩
    | some request => exact ⟨_, .confirmed request herror hrequest⟩
  | true =>
    cases hrequest : done.requests terminal with
    | none => exact ⟨_, .bystander herror hrequest⟩
    | some request =>
      rcases Nat.lt_or_ge retryLimit request.attempt with hlast | hleft
      · exact ⟨_, .exhausted request herror hrequest hlast⟩
      · refine ⟨_, .retried request herror hrequest hleft (hfree.resolve_right ?_)⟩
        simp [hrequest]

/-- The end of a frame sends the notices and one more operation. -/
theorem Completed.output_length_le (h : node.Completed retryLimit done terminal node')
    (hnotices : node.notification.length ≤ 12) (hoperation : done.operation.length ≤ 24) :
    node'.output.length ≤ frameEndOutput := by
  simp only [frameEndOutput]
  cases h with
  | confirmed =>
    simp only [length_append, identifierOperation_length]
    omega
  | received =>
    simp only [length_append]
    split
    · simp only [length_nil]
      omega
    · omega
  | bystander =>
    simp only [length_append, errorOutput, busErrorOperation_length]
    omega
  | retried =>
    simp only [length_append, errorOutput, busErrorOperation_length]
    omega
  | exhausted =>
    simp only [length_append, errorOutput, busErrorOperation_length]
    omega

/-- What the end of a failed frame sends to an active terminal. -/
theorem Completed.output_of_error (h : node.Completed retryLimit done terminal node')
    (herror : done.transmissionError = true) :
    node'.output = node.notification ++ errorOutput done terminal := by
  cases h with
  | confirmed _ hok => cases hok.symm.trans herror
  | received hok => cases hok.symm.trans herror
  | bystander => rfl
  | retried => rfl
  | exhausted => rfl

/-- The end of a frame leaves queues and reports alone and sends the notices. -/
theorem Completed.frame (h : node.Completed retryLimit done terminal node') :
    node'.queue = node.queue ∧ node'.formatError = node.formatError ∧ node'.notification = [] := by
  cases h with
  | confirmed => exact ⟨rfl, rfl, rfl⟩
  | received => exact ⟨rfl, rfl, rfl⟩
  | bystander => exact ⟨rfl, rfl, rfl⟩
  | retried => exact ⟨rfl, rfl, rfl⟩
  | exhausted => exact ⟨rfl, rfl, rfl⟩

/-- The first loop of `complete` at one terminal, when the frame did not fail. -/
theorem deliver_eq_iff (hok : done.transmissionError = false) :
    node' = { node.deliver done terminal with notification := [] } ↔
      Completed retryLimit done terminal node node' := by
  simp only [deliver, hok, Bool.false_eq_true, if_false]
  constructor
  · rintro rfl
    cases hrequest : done.requests terminal with
    | some request => exact .confirmed request hok hrequest
    | none => exact .received hok hrequest
  · intro h
    cases h with
    | confirmed request _ hrequest => simp only [hrequest, note]
    | received _ hrequest => simp only [hrequest]
    | bystander herror => cases hok.symm.trans herror
    | retried _ herror => cases hok.symm.trans herror
    | exhausted _ herror => cases hok.symm.trans herror

/-- The two loops of `complete` at one terminal, when the frame failed. -/
theorem retryFailed_deliver_eq_ok_iff (herror : done.transmissionError = true) :
    (∃ next, (node.deliver done terminal).retryFailed retryLimit (done.requests terminal) =
        .ok next ∧ node' = { next with notification := [] }) ↔
      Completed retryLimit done terminal node node' := by
  simp only [deliver, herror]
  constructor
  · rintro ⟨next, hnext, rfl⟩
    cases hrequest : done.requests terminal with
    | none =>
      rw [hrequest] at hnext
      cases hnext
      exact .bystander herror hrequest
    | some request =>
      simp only [hrequest, retryFailed] at hnext
      split at hnext
      · rename_i hattempt
        rw [require_bind_eq_ok] at hnext
        obtain ⟨hfree, hnext⟩ := hnext
        cases hnext
        exact .retried request herror hrequest hattempt hfree
      · cases hnext
        exact .exhausted request herror hrequest (by omega)
  · intro h
    cases h with
    | confirmed request hok hrequest =>
      rw [herror] at hok
      cases hok
    | received hok hrequest =>
      rw [herror] at hok
      cases hok
    | bystander _ hrequest =>
      rw [hrequest]
      exact ⟨_, rfl, rfl⟩
    | retried request _ hrequest hattempt hfree =>
      simp only [hrequest, retryFailed, if_pos hattempt, require_bind_eq_ok]
      exact ⟨_, ⟨hfree, rfl⟩, rfl⟩
    | exhausted request _ hrequest hattempt =>
      simp only [hrequest, retryFailed, if_neg (Nat.not_le.mpr hattempt)]
      exact ⟨_, rfl, rfl⟩

end Node

namespace Bus

variable {b b' : Bus} {now : Int}

/-! ## The winner -/

/-- The search for the winner keeps a head of the lowest identifier so far. -/
theorem contender_foldl (b : Bus) (l : List Terminal) (best : Option Request) :
    (l.foldl b.contender best = none ↔ best = none ∧ ∀ n ∈ l, (b.nodes n).head? = none) ∧
      ∀ chosen, l.foldl b.contender best = some chosen →
        (best = some chosen ∨ ∃ n ∈ l, (b.nodes n).head? = some chosen) ∧
          (∀ request, best = some request → chosen.id ≤ request.id) ∧
          ∀ n ∈ l, ∀ request, (b.nodes n).head? = some request → chosen.id ≤ request.id := by
  induction l generalizing best with
  | nil =>
    refine ⟨by simp, fun chosen h => ?_⟩
    subst h
    refine ⟨.inl rfl, fun request hrequest => ?_, by simp⟩
    cases hrequest
    exact le_refl _
  | cons n rest ih =>
    obtain ⟨hnone, hsome⟩ := ih (b.contender best n)
    rw [foldl_cons]
    cases hhead : (b.nodes n).head? with
    | none =>
      have hbest : b.contender best n = best := by
        simp only [contender, hhead]
      rw [hbest] at hnone hsome ⊢
      refine ⟨by simp [hnone, hhead], fun chosen h => ?_⟩
      obtain ⟨hfrom, hbelow, hrest⟩ := hsome chosen h
      refine ⟨hfrom.imp_right fun ⟨m, hm, hmhead⟩ => ⟨m, mem_cons_of_mem _ hm, hmhead⟩,
        hbelow, fun m hm request hrequest => ?_⟩
      rcases mem_cons.mp hm with rfl | hm
      · rw [hhead] at hrequest
        cases hrequest
      · exact hrest m hm request hrequest
    | some request =>
      -- Whatever is kept is below both the head and what was kept before.
      obtain ⟨kept, hkept, hkeptfrom, hkeptbest, hkepthead⟩ : ∃ kept,
          b.contender best n = some kept ∧ (best = some kept ∨ kept = request) ∧
            (∀ before, best = some before → kept.id ≤ before.id) ∧
            kept.id ≤ request.id := by
        cases best with
        | none => exact ⟨request, by simp only [contender, hhead], .inr rfl, by simp, le_refl _⟩
        | some before =>
          by_cases hlt : request.id < before.id
          · refine ⟨request, by simp only [contender, hhead, if_pos hlt], .inr rfl, ?_, le_refl _⟩
            rintro _ ⟨⟩
            omega
          · refine ⟨before, by simp only [contender, hhead, if_neg hlt], .inl rfl, ?_, ?_⟩
            · rintro _ ⟨⟩
              exact le_refl _
            · omega
      rw [hkept] at hnone hsome ⊢
      refine ⟨by simp [hnone, hhead], fun chosen h => ?_⟩
      obtain ⟨hfrom, hbelow, hrest⟩ := hsome chosen h
      have hle : chosen.id ≤ kept.id := hbelow kept rfl
      refine ⟨?_, fun before hbefore => hle.trans (hkeptbest before hbefore),
        fun m hm other hother => ?_⟩
      · rcases hfrom with hfrom | ⟨m, hm, hmhead⟩
        · cases hfrom
          rcases hkeptfrom with hbest | rfl
          · exact .inl hbest
          · exact .inr ⟨n, by simp, hhead⟩
        · exact .inr ⟨m, mem_cons_of_mem _ hm, hmhead⟩
      · rcases mem_cons.mp hm with rfl | hm
        · rw [hhead] at hother
          cases hother
          exact hle.trans hkepthead
        · exact hrest m hm other hother

theorem winner_eq_none : b.winner = none ↔ ∀ n, b.isActive n = true → (b.nodes n).head? = none := by
  rw [winner, (b.contender_foldl b.active none).1]
  simp

theorem exists_head_of_winner {chosen : Request} (h : b.winner = some chosen) :
    ∃ n, b.isActive n = true ∧ (b.nodes n).head? = some chosen := by
  obtain ⟨hfrom, _, _⟩ := (b.contender_foldl b.active none).2 chosen h
  simpa using hfrom

theorem winner_id_le {chosen request : Request} {n : Terminal} (h : b.winner = some chosen)
    (hactive : b.isActive n = true) (hhead : (b.nodes n).head? = some request) :
    chosen.id ≤ request.id :=
  ((b.contender_foldl b.active none).2 chosen h).2.2 n (mem_active.mpr hactive) request hhead

/-! ## Arbitration -/

/-- The end of a frame that starts now. -/
def frameEnd (now : Int) (b : Bus) (chosen : Request) : Int :=
  now + frameBits chosen.id (chosen.operation.drop 16) * b.bitTime

/-- The transmission of the requests that won an arbitration. -/
def transmission (now : Int) (b : Bus) (chosen : Request) (requests : Terminal → Option Request) :
    Frame :=
  let selected := (selectFault b.active requests b.rules).2
  ⟨now, transferOf chosen.operation requests (b.frameEnd now chosen) (selected.map Prod.snd),
    selected.map Prod.fst⟩

theorem transferOf_spec (operation : Bytes) (requests : Terminal → Option Request) (ends : Int)
    (fault : Option FaultRule) :
    (transferOf operation requests ends fault).operation = operation ∧
      (transferOf operation requests ends fault).requests = requests ∧
      (transferOf operation requests ends fault).ends = ends := by
  cases fault with
  | none => exact ⟨rfl, rfl, rfl⟩
  | some rule =>
    simp only [transferOf]
    cases rule.kind with
    | transmissionError => exact ⟨rfl, rfl, rfl⟩
    | receiverDeliverySuppression receiver => exact ⟨rfl, rfl, rfl⟩

@[simp] theorem transmission_operation (now : Int) (b : Bus) (chosen : Request)
    (requests : Terminal → Option Request) :
    (b.transmission now chosen requests).transfer.operation = chosen.operation :=
  (transferOf_spec _ _ _ _).1

@[simp] theorem transmission_requests (now : Int) (b : Bus) (chosen : Request)
    (requests : Terminal → Option Request) :
    (b.transmission now chosen requests).transfer.requests = requests :=
  (transferOf_spec _ _ _ _).2.1

@[simp] theorem transmission_ends (now : Int) (b : Bus) (chosen : Request)
    (requests : Terminal → Option Request) :
    (b.transmission now chosen requests).transfer.ends = b.frameEnd now chosen :=
  (transferOf_spec _ _ _ _).2.2

/-- When arbitration succeeds, and what it leaves. -/
structure Arbitrated (now : Int) (b : Bus) (chosen : Request) (requests : Terminal → Option Request)
    (b' : Bus) : Prop where
  winner_eq : b.winner = some chosen
  ends_le : b.frameEnd now chosen ≤ maxTime
  contended : ∀ n, b.isActive n = true → (b.nodes n).Contended chosen (b'.nodes n) (requests n)
  inactive : ∀ n, b.isActive n = false → b'.nodes n = b.nodes n ∧ requests n = none
  bus_eq : b' = { b with
    nodes := b'.nodes
    rules := (selectFault b.active requests b.rules).1
    onWire := some (b.transmission now chosen requests).transfer
    frames := b.frames ++ [b.transmission now chosen requests] }

theorem arbitrate_eq_ok_iff : b.arbitrate now = .ok b' ↔
      ∃ chosen requests, Arbitrated now b chosen requests b' := by
  constructor
  · intro h
    simp only [arbitrate] at h
    cases hwinner : b.winner with
    | none =>
      simp only [hwinner] at h
      cases h
    | some chosen =>
      simp only [hwinner] at h
      rw [require_bind_eq_ok, bind_eq_ok] at h
      obtain ⟨hends, table, hvisit, hresult⟩ := h
      cases hresult
      obtain ⟨hactive, hinactive⟩ := (visit_eq_ok_iff b.active_nodup).mp hvisit
      refine ⟨chosen, fun n => (table n).2, hwinner, hends, fun n hn => ?_, fun n hn => ?_, rfl⟩
      · exact Node.contend_eq_ok_iff.mp (hactive n (mem_active.mpr hn))
      · have hsame := hinactive n (by simp [hn])
        simp only [hsame, and_self]
  · rintro ⟨chosen, requests, h⟩
    have hvisit : visit (fun _ entry => entry.1.contend chosen) b.active
        (fun n => (b.nodes n, (none : Option Request))) =
          .ok fun n => (b'.nodes n, requests n) := by
      rw [visit_eq_ok_iff b.active_nodup]
      refine ⟨fun n hn => Node.contend_eq_ok_iff.mpr (h.contended n (mem_active.mp hn)),
        fun n hn => ?_⟩
      obtain ⟨hnode, hrequest⟩ := h.inactive n (by simpa using hn)
      rw [hnode, hrequest]
    simp only [arbitrate, h.winner_eq]
    rw [require_bind_eq_ok, bind_eq_ok]
    exact ⟨h.ends_le, _, hvisit, congrArg Except.ok h.bus_eq.symm⟩

/-! ## Completion -/

/-- When a frame ends, and what that leaves. -/
structure CompletedAt (now : Int) (b : Bus) (done : Transfer) (b' : Bus) : Prop where
  onWire_eq : b.onWire = some done
  ends_eq : done.ends = now
  completed : ∀ n, b.isActive n = true → (b.nodes n).Completed b.retryLimit done n (b'.nodes n)
  inactive : ∀ n, b.isActive n = false → b'.nodes n = { b.nodes n with notification := [] }
  bus_eq : b' = { b with
    nodes := b'.nodes
    idleFrom := now + intermissionBits * b.bitTime
    onWire := none }

/-- The loops of `complete` over the active terminals. -/
theorem completeNodes_eq_ok_iff {done : Transfer} {nodes' : Terminal → Node} :
    (∃ nodes, b.completeNodes done = .ok nodes ∧
        nodes' = fun n => { nodes n with notification := [] }) ↔
      (∀ n, b.isActive n = true → (b.nodes n).Completed b.retryLimit done n (nodes' n)) ∧
        ∀ n, b.isActive n = false → nodes' n = { b.nodes n with notification := [] } := by
  simp only [completeNodes]
  cases herror : done.transmissionError with
  | false =>
    simp only [Bool.false_eq_true, if_false, Except.ok.injEq, exists_eq_left',
      ← Node.deliver_eq_iff herror]
    constructor
    · rintro rfl
      exact ⟨fun n hn => by simp only [hn, if_true], fun n hn => by simp [hn]⟩
    · rintro ⟨hactive, hinactive⟩
      funext n
      cases hn : b.isActive n with
      | true => simp only [hactive n hn, if_true]
      | false => simp [hinactive n hn]
  | true =>
    simp only [if_true, visit_eq_ok_iff b.active_nodup, mem_active,
      ← Node.retryFailed_deliver_eq_ok_iff herror]
    constructor
    · rintro ⟨nodes, ⟨hactive, hinactive⟩, rfl⟩
      refine ⟨fun n hn => ⟨nodes n, ?_, rfl⟩, fun n hn => ?_⟩
      · simpa only [hn, if_true] using hactive n hn
      · show { nodes n with notification := [] } = _
        rw [hinactive n (by simp [hn])]
        simp [hn]
    · rintro ⟨hactive, hinactive⟩
      have hnext : ∀ n, ∃ next, (b.isActive n = true →
            ((b.nodes n).deliver done n).retryFailed b.retryLimit (done.requests n) = .ok next) ∧
          (b.isActive n = false → next = b.nodes n) ∧
          nodes' n = { next with notification := [] } := by
        intro n
        cases hn : b.isActive n with
        | true =>
          obtain ⟨next, hretry, hnode⟩ := hactive n hn
          exact ⟨next, fun _ => hretry, by simp, hnode⟩
        | false => exact ⟨b.nodes n, by simp, fun _ => rfl, hinactive n hn⟩
      choose nodes hvisited hkept hnodes using hnext
      refine ⟨nodes, ⟨fun n hn => ?_, fun n hn => ?_⟩, funext hnodes⟩
      · simpa only [hn, if_true] using hvisited n hn
      · rw [hkept n (by simpa using hn)]
        simp [hn]

theorem complete_eq_ok_iff : b.complete now = .ok b' ↔ ∃ done, CompletedAt now b done b' := by
  constructor
  · intro h
    simp only [complete] at h
    cases hwire : b.onWire with
    | none =>
      simp only [hwire] at h
      cases h
    | some done =>
      simp only [hwire] at h
      rw [require_bind_eq_ok, bind_eq_ok] at h
      obtain ⟨hends, nodes, hnodes, hresult⟩ := h
      cases hresult
      obtain ⟨hactive, hinactive⟩ := completeNodes_eq_ok_iff.mp ⟨nodes, hnodes, rfl⟩
      exact ⟨done, hwire, hends, hactive, hinactive, rfl⟩
  · rintro ⟨done, h⟩
    obtain ⟨nodes, hnodes, hnodes'⟩ := completeNodes_eq_ok_iff.mpr ⟨h.completed, h.inactive⟩
    simp only [complete, h.onWire_eq]
    rw [require_bind_eq_ok, bind_eq_ok]
    refine ⟨h.ends_eq, nodes, hnodes, congrArg Except.ok ?_⟩
    rw [← hnodes']
    exact h.bus_eq.symm

/-! ## The calls -/

theorem tick_eq_ok_iff : b.tick now = .ok b' ↔ b.nextEvent = some now ∧
        ∃ ended, (if b.isCompletion now then b.complete now = .ok ended else ended = b) ∧
          b' = ended.reportDue now := by
  rw [tick, require_bind_eq_ok, bind_eq_ok]
  cases b.isCompletion now with
  | true => simp [eq_comm]
  | false => simp [eq_comm]

theorem receive_eq_ok_iff {inputs : Terminal → Bytes} :
    b.receive inputs now = .ok b' ↔ (0 ≤ now ∧ now ≤ maxTime) ∧ (∀ due ∈ b.nextEvent, now ≤ due) ∧
        ∃ next, b.commit inputs now = .ok next ∧
          ((next.onWire = none ∧ next.hasPending = true ∧ next.idleFrom ≤ now ∧
              next.arbitrate now = .ok b') ∨
            (¬ (next.onWire = none ∧ next.hasPending = true ∧ next.idleFrom ≤ now) ∧
              b' = next)) := by
  rw [receive, require_bind_eq_ok, require_bind_eq_ok, bind_eq_ok]
  refine and_congr_right fun _ => and_congr_right fun _ => exists_congr fun next =>
    and_congr_right fun _ => ?_
  have hcondition : (next.onWire.isNone && next.hasPending && decide (next.idleFrom ≤ now)) =
      true ↔ next.onWire = none ∧ next.hasPending = true ∧ next.idleFrom ≤ now := by
    simp [and_assoc]
  by_cases h : next.onWire = none ∧ next.hasPending = true ∧ next.idleFrom ≤ now
  · simp [h]
  · rw [if_neg (mt hcondition.mp h)]
    simp only [Except.ok.injEq, h, not_false_eq_true, true_and, eq_comm (b := b')]
    constructor
    · exact .inr
    · rintro (⟨hwire, hpending, hidle, _⟩ | heq)
      · exact absurd ⟨hwire, hpending, hidle⟩ h
      · exact heq

/-- A tick ends the frame that is complete, if any, and sends the reports. -/
theorem tick_spec (h : b.tick now = .ok b') : ∃ ended, b' = ended.reportDue now ∧
    ((∃ done, CompletedAt now b done ended) ∨ b.isCompletion now = false ∧ ended = b) := by
  obtain ⟨_, ended, hended, rfl⟩ := tick_eq_ok_iff.mp h
  refine ⟨ended, rfl, ?_⟩
  cases hcompletion : b.isCompletion now with
  | true =>
    rw [if_pos hcompletion] at hended
    exact .inl (complete_eq_ok_iff.mp hended)
  | false =>
    rw [hcompletion] at hended
    exact .inr ⟨rfl, hended⟩

/-- Receiving commits the requests, and starts a frame if the bus is free. -/
theorem receive_spec {inputs : Terminal → Bytes} (h : b.receive inputs now = .ok b') :
    ∃ s next, Committed now b s next ∧
      ((∃ chosen requests, (next.onWire = none ∧ next.hasPending = true ∧ next.idleFrom ≤ now) ∧
          Arbitrated now next chosen requests b') ∨
        ¬ (next.onWire = none ∧ next.hasPending = true ∧ next.idleFrom ≤ now) ∧ b' = next) := by
  obtain ⟨_, _, next, hcommit, hnext⟩ := receive_eq_ok_iff.mp h
  obtain ⟨s, hcommitted⟩ := commit_spec hcommit
  refine ⟨s, next, hcommitted, hnext.imp_left ?_⟩
  rintro ⟨hwire, hpending, hidle, harbitrate⟩
  obtain ⟨chosen, requests, harbitrated⟩ := arbitrate_eq_ok_iff.mp harbitrate
  exact ⟨chosen, requests, ⟨hwire, hpending, hidle⟩, harbitrated⟩

end Bus

end SilFormal.Can
