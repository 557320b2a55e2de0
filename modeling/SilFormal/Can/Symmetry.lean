import SilFormal.Can.Effects
import SilFormal.Can.Conservation

/-!
# Renaming the terminals of the bus

The bus visits its terminals in index order, and the first of the lowest
identifiers wins.  Nothing that a Run leaves depends on that: a permutation of
the active terminals, applied to the inputs and to the fault rules, carries a
Run of the bus to a Run of the bus.
-/

namespace SilFormal.Can

open Fallible Commuting List

/-! ## Renamed states -/

def FaultKind.rename (σ : Equiv.Perm Terminal) : FaultKind → FaultKind
  | .transmissionError => .transmissionError
  | .receiverDeliverySuppression receiver => .receiverDeliverySuppression (σ receiver)

def FaultRule.rename (σ : Equiv.Perm Terminal) (rule : FaultRule) : FaultRule :=
  { rule with kind := rule.kind.rename σ, sender := σ rule.sender }

def RuleState.rename (σ : Equiv.Perm Terminal) (state : RuleState) : RuleState :=
  { state with rule := state.rule.rename σ }

def Transfer.rename (σ : Equiv.Perm Terminal) (transfer : Transfer) : Transfer :=
  { transfer with
    requests := fun n => transfer.requests (σ.symm n)
    primaryErrorNode := transfer.primaryErrorNode.map σ
    suppressedReceiver := transfer.suppressedReceiver.map σ }

def Frame.rename (σ : Equiv.Perm Terminal) (frame : Frame) : Frame :=
  { frame with transfer := frame.transfer.rename σ }

/-- The bus with what belongs to terminal `n` at terminal `σ n`. -/
def Bus.rename (σ : Equiv.Perm Terminal) (b : Bus) : Bus :=
  { b with
    nodes := fun n => b.nodes (σ.symm n)
    onWire := b.onWire.map (Transfer.rename σ)
    rules := b.rules.map (RuleState.rename σ)
    frames := b.frames.map (Frame.rename σ) }

/-- The inputs of terminal `n` at terminal `σ n`. -/
def Call.rename (σ : Equiv.Perm Terminal) : Call → Call
  | .receive inputs now => .receive (fun n => inputs (σ.symm n)) now
  | .tick now => .tick now
  | .clearOutputs => .clearOutputs

/-- A one-based node number; 0 and the numbers beyond the terminals name none. -/
def renameNode (σ : Equiv.Perm Terminal) (node : Nat) : Nat :=
  if 1 ≤ node ∧ node ≤ terminalCapacity then (σ (Bus.terminalOf node)).val + 1 else node

def FaultRuleInput.rename (σ : Equiv.Perm Terminal) (input : FaultRuleInput) : FaultRuleInput :=
  { input with
    senderNode := renameNode σ input.senderNode
    receiverNode := renameNode σ input.receiverNode }

/-- The configuration with the sender and the receiver of every rule renamed. -/
def Configuration.rename (σ : Equiv.Perm Terminal) (c : Configuration) : Configuration :=
  { c with faultRules := c.faultRules.map (FaultRuleInput.rename σ) }

section Inverse

variable (σ : Equiv.Perm Terminal)

theorem FaultRule.rename_symm (rule : FaultRule) : (rule.rename σ).rename σ.symm = rule := by
  obtain ⟨kind, sender, id, first, last, occurrence, attempt⟩ := rule
  cases kind with
  | transmissionError => simp [FaultRule.rename, FaultKind.rename]
  | receiverDeliverySuppression receiver => simp [FaultRule.rename, FaultKind.rename]

theorem RuleState.rename_symm (state : RuleState) : (state.rename σ).rename σ.symm = state := by
  simp [RuleState.rename, FaultRule.rename_symm]

theorem Transfer.rename_symm (transfer : Transfer) :
    (transfer.rename σ).rename σ.symm = transfer := by
  simp [Transfer.rename]

theorem Frame.rename_symm (frame : Frame) : (frame.rename σ).rename σ.symm = frame := by
  simp [Frame.rename, Transfer.rename_symm]

theorem Bus.rename_symm (b : Bus) : (b.rename σ).rename σ.symm = b := by
  simp [Bus.rename, Function.comp_def, Transfer.rename_symm, RuleState.rename_symm,
    Frame.rename_symm]

theorem Call.rename_symm (call : Call) : (call.rename σ).rename σ.symm = call := by
  cases call with
  | receive inputs now => simp [Call.rename]
  | tick now => rfl
  | clearOutputs => rfl

end Inverse

namespace Bus

section Observations

variable (b : Bus) (σ : Equiv.Perm Terminal)

@[simp] theorem rename_nodes (n : Terminal) : (b.rename σ).nodes (σ n) = b.nodes n :=
  congrArg b.nodes (σ.symm_apply_apply n)

@[simp] theorem rename_isActive (n : Terminal) : (b.rename σ).isActive n = b.isActive n := rfl

@[simp] theorem rename_hasPending : (b.rename σ).hasPending = b.hasPending := by
  rw [Bool.eq_iff_iff, hasPending_eq_true, hasPending_eq_true]
  exact (σ.symm.surjective.exists (p := fun n => (b.nodes n).head? ≠ none)).symm

@[simp] theorem rename_nextEvent : (b.rename σ).nextEvent = b.nextEvent := by
  simp only [nextEvent, rename_hasPending]
  simp only [rename]
  cases b.onWire with
  | none => rfl
  | some transfer => rfl

@[simp] theorem rename_isCompletion (now : Int) :
    (b.rename σ).isCompletion now = b.isCompletion now := by
  simp only [isCompletion, rename]
  cases b.onWire with
  | none => rfl
  | some transfer => rfl

/-- A permutation of the terminals that keeps the active ones active. -/
abbrev Permutes : Prop :=
  ∀ n, b.isActive (σ n) = b.isActive n

end Observations

theorem Permutes.congr {b b' : Bus} {σ : Equiv.Perm Terminal} (hσ : b.Permutes σ)
    (h : b'.activeNodes = b.activeNodes) : b'.Permutes σ := fun n => by
  rw [isActive_congr h, isActive_congr h, hσ n]

theorem Permutes.symm {b : Bus} {σ : Equiv.Perm Terminal} (hσ : b.Permutes σ) :
    b.Permutes σ.symm := fun n => by
  rw [← hσ, σ.apply_symm_apply]

/-! ## One event -/

section Events

variable {σ : Equiv.Perm Terminal} {b b' : Bus} {now : Int}

/-- A renamed table at one place. -/
theorem update_comp_symm {α : Type} (f : Terminal → α) (terminal : Terminal) (x : α) :
    Function.update (fun n => f (σ.symm n)) (σ terminal) x =
      fun n => Function.update f terminal x (σ.symm n) := by
  funext n
  obtain ⟨n, rfl⟩ := σ.surjective n
  simp [Function.update_apply]

theorem names_rename (terminal : Terminal) (id : Nat) (state : RuleState) :
    (state.rename σ).Names (σ terminal) id ↔ state.Names terminal id := by
  simp [RuleState.Names, RuleState.rename, FaultRule.rename]

theorem countRule_rename (terminal : Terminal) (op : Operation) (state : RuleState) :
    op.countRule (σ terminal) (state.rename σ) = (op.countRule terminal state).rename σ := by
  simp only [Operation.countRule]
  cases op.frame with
  | none => rfl
  | some bytes =>
    simp only [RuleState.count, names_rename]
    split <;> rfl

theorem performed_rename (terminal : Terminal) (op : Operation) :
    (b.rename σ).performed now (σ terminal) op = (b.performed now terminal op).rename σ := by
  have hrules : (b.rules.map (RuleState.rename σ)).map (op.countRule (σ terminal)) =
      (b.rules.map (op.countRule terminal)).map (RuleState.rename σ) := by
    rw [map_map, map_map]
    exact map_congr_left fun state _ => countRule_rename terminal op state
  simp only [performed, modify, rename, update_comp_symm, Equiv.symm_apply_apply, hrules]

theorem requestsOf_rename (terminal : Terminal) (op : Operation) :
    (b.rename σ).requestsOf now (σ terminal) op = b.requestsOf now terminal op := by
  simp only [requestsOf, requestOf, rename, RuleState.nextOccurrence, foldl_map, names_rename]
  rfl

theorem Enabled.rename {terminal : Terminal} {op : Operation}
    (h : b.Enabled now terminal op) : (b.rename σ).Enabled now (σ terminal) op where
  known := h.known
  rate := h.rate
  due := h.due
  fits := fun bytes hbytes => by
    rw [rename_nodes]
    exact h.fits bytes hbytes
  counts := fun bytes hbytes state hstate hnames => by
    obtain ⟨before, hbefore, rfl⟩ := mem_map.mp hstate
    exact h.counts bytes hbytes before hbefore ((names_rename _ _ _).mp hnames)

/-- The staging of a renamed event. -/
def Staging.rename (σ : Equiv.Perm Terminal) (s : Staging) : Staging :=
  (s.1.rename σ, fun n => s.2 (σ.symm n))

theorem Performs.rename {step : Terminal × Operation} {s t : Staging} (h : Performs now step s t) :
    Performs now (σ step.1, step.2) (Staging.rename σ s) (Staging.rename σ t) := by
  obtain ⟨henabled, rfl⟩ := h
  refine ⟨henabled.rename, Prod.ext (performed_rename _ _).symm (funext fun n => ?_)⟩
  obtain ⟨n, rfl⟩ := σ.surjective n
  simp [Staging.rename, requestsOf_rename]

theorem Enqueues.rename {t : Staging} (hσ : t.1.Permutes σ) (h : Enqueues t b') :
    Enqueues (Staging.rename σ t) (b'.rename σ) where
  ready := fun ⟨n, hn⟩ => by
    obtain ⟨hrate, hconfigured⟩ := h.ready ⟨σ.symm n, hn⟩
    refine ⟨hrate, fun m hm => hconfigured (σ.symm m) ?_⟩
    rw [mem_active, hσ.symm m]
    exact mem_active.mp hm
  room := fun n => h.room (σ.symm n)
  bus_eq := by
    rw [h.bus_eq]
    rfl

theorem commit_rename {inputs : Terminal → Bytes} (hσ : b.Permutes σ)
    (h : b.commit inputs now = .ok b') :
    (b.rename σ).commit (fun n => inputs (σ.symm n)) now = .ok (b'.rename σ) := by
  obtain ⟨hadmits, t, halong, henqueues⟩ := (commit_eq_ok_iff (List.Perm.refl _)).mp h
  rw [commit_eq_ok_iff (Equiv.Perm.map_finRange_perm σ)]
  refine ⟨fun n => ?_, Staging.rename σ t, ?_, henqueues.rename ?_⟩
  · obtain ⟨hactive, hlength⟩ := hadmits (σ.symm n)
    refine ⟨?_, hlength⟩
    rwa [hσ.symm n] at hactive
  · obtain ⟨t', halong', rfl⟩ := halong.map
      (p := fun s t => t = Staging.rename σ s)
      (fun step _ s s' t ht hstep => ⟨_, ht ▸ hstep.rename, rfl⟩) rfl
    have hoperations : ((finRange terminalCapacity).map σ).flatMap
          (operations fun n => inputs (σ.symm n)) =
        ((finRange terminalCapacity).flatMap (operations inputs)).map
          fun step => (σ step.1, step.2) := by
      simp [flatMap_map, map_flatMap, operations, Function.comp_def]
    rw [hoperations]
    exact halong'
  · exact hσ.congr (performs_frame halong).1

end Events

/-! ## Transmission -/

section Transmission

variable {σ : Equiv.Perm Terminal} {b b' : Bus} {now : Int} {requests : Terminal → Option Request}

theorem eligible_rename (rule : FaultRule) (terminal : Terminal) (request : Option Request) :
    eligible (rule.rename σ) (σ terminal) request = eligible rule terminal request := by
  cases request with
  | none => rfl
  | some request =>
    have hsender : decide (σ terminal = σ rule.sender) = decide (terminal = rule.sender) := by
      simp
    simp only [eligible]
    rw [← hsender]
    rfl

/-- A frame meets the same rule under every name of its senders. -/
theorem selectFault_rename {active : List Terminal} (hactive : ∀ n, σ n ∈ active ↔ n ∈ active)
    (requests : Terminal → Option Request) (rules : List RuleState) :
    selectFault active (fun n => requests (σ.symm n)) (rules.map (RuleState.rename σ)) =
      ((selectFault active requests rules).1.map (RuleState.rename σ),
        (selectFault active requests rules).2.map fun hit => (hit.1, hit.2.rename σ)) := by
  induction rules with
  | nil => rfl
  | cons state rest ih =>
    have hany : (active.any fun n => eligible (state.rename σ).rule n (requests (σ.symm n))) =
        active.any fun n => eligible state.rule n (requests n) := by
      rw [Bool.eq_iff_iff, any_eq_true, any_eq_true]
      constructor
      · rintro ⟨n, hn, heligible⟩
        obtain ⟨n, rfl⟩ := σ.surjective n
        refine ⟨n, (hactive n).mp hn, ?_⟩
        rwa [σ.symm_apply_apply, RuleState.rename, eligible_rename] at heligible
      · rintro ⟨n, hn, heligible⟩
        refine ⟨σ n, (hactive n).mpr hn, ?_⟩
        rwa [σ.symm_apply_apply, RuleState.rename, eligible_rename]
    simp only [map_cons, selectFault, hany, ih]
    by_cases hhit : (!state.consumed && active.any fun n =>
        eligible state.rule n (requests n)) = true
    · have hhit' : (!(state.rename σ).consumed && active.any fun n =>
          eligible state.rule n (requests n)) = true := hhit
      rw [if_pos hhit, if_pos hhit']
      rfl
    · have hhit' : ¬ (!(state.rename σ).consumed && active.any fun n =>
          eligible state.rule n (requests n)) = true := hhit
      rw [if_neg hhit, if_neg hhit']
      simp [Function.comp_def]

theorem transferOf_rename (operation : Bytes) (requests : Terminal → Option Request) (ends : Int)
    (fault : Option FaultRule) :
    transferOf operation (fun n => requests (σ.symm n)) ends (fault.map (FaultRule.rename σ)) =
      (transferOf operation requests ends fault).rename σ := by
  cases fault with
  | none => rfl
  | some rule =>
    obtain ⟨kind, sender, id, first, last, occurrence, attempt⟩ := rule
    cases kind with
    | transmissionError => rfl
    | receiverDeliverySuppression receiver => rfl

/-- The winners of a bus and of the renamed bus may be requests of different
terminals, but they transmit the same frame. -/
theorem Arbitrated.exists_winner {chosen : Request} (hσ : b.Permutes σ)
    (h : Arbitrated now b chosen requests b') :
    ∃ chosen', (b.rename σ).winner = some chosen' ∧ chosen'.id = chosen.id ∧
      chosen'.operation = chosen.operation := by
  obtain ⟨n, hn, hhead⟩ := exists_head_of_winner h.winner_eq
  cases hwinner : (b.rename σ).winner with
  | none =>
    have hidle := winner_eq_none.mp hwinner (σ n) ((hσ n).trans hn)
    rw [rename_nodes, hhead] at hidle
    cases hidle
  | some chosen' =>
    obtain ⟨m, hm, hhead'⟩ := exists_head_of_winner hwinner
    obtain ⟨m, rfl⟩ := σ.surjective m
    rw [rename_nodes] at hhead'
    rw [rename_isActive, hσ] at hm
    have hid : chosen'.id = chosen.id := by
      refine le_antisymm ?_ (winner_id_le h.winner_eq hm hhead')
      refine winner_id_le hwinner ((hσ n).trans hn) ?_
      rw [rename_nodes, hhead]
    exact ⟨chosen', rfl, hid, ((h.contended m hm).taken_of_id hhead' hid).2⟩

theorem Arbitrated.rename {chosen : Request} (hσ : b.Permutes σ)
    (h : Arbitrated now b chosen requests b') :
    ∃ chosen', Arbitrated now (b.rename σ) chosen' (fun n => requests (σ.symm n))
      (b'.rename σ) := by
  obtain ⟨chosen', hwinner, hid, hop⟩ := h.exists_winner hσ
  have hends : (b.rename σ).frameEnd now chosen' = b.frameEnd now chosen := by
    simp only [frameEnd, hid, hop]
    rfl
  have hkept : ∀ n, σ n ∈ b.active ↔ n ∈ b.active := by simp [hσ]
  have hselect := selectFault_rename hkept requests b.rules
  have htransmission : (b.rename σ).transmission now chosen' (fun n => requests (σ.symm n)) =
      (b.transmission now chosen requests).rename σ := by
    simp only [transmission, hends, hop, Frame.rename, ← transferOf_rename]
    rw [show (b.rename σ).rules = b.rules.map (RuleState.rename σ) from rfl,
      show (b.rename σ).active = b.active from rfl, hselect]
    simp [Function.comp_def]
  refine ⟨chosen', hwinner, hends ▸ h.ends_le, fun n hn => ?_, fun n hn => ?_, ?_⟩
  · obtain ⟨n, rfl⟩ := σ.surjective n
    rw [rename_nodes, rename_nodes, σ.symm_apply_apply]
    exact (h.contended n ((hσ n).symm.trans hn)).congr hid hop
  · obtain ⟨n, rfl⟩ := σ.surjective n
    rw [rename_nodes, rename_nodes, σ.symm_apply_apply]
    exact h.inactive n ((hσ n).symm.trans hn)
  · have hrules : (selectFault b.active (fun n => requests (σ.symm n))
        (b.rules.map (RuleState.rename σ))).1 =
          (selectFault b.active requests b.rules).1.map (RuleState.rename σ) := by
      rw [hselect]
    have hbus := congrArg (Bus.rename σ) h.bus_eq
    rw [htransmission]
    refine hbus.trans ?_
    simp only [Bus.rename, map_append, ← hrules]
    rfl

theorem errorOutput_rename (done : Transfer) (terminal : Terminal) :
    Node.errorOutput (done.rename σ) (σ terminal) = Node.errorOutput done terminal := by
  have hprimary : decide (some (σ terminal) = done.primaryErrorNode.map σ) =
      decide (some terminal = done.primaryErrorNode) := by
    cases done.primaryErrorNode with
    | none => rfl
    | some primary => simp
  simp only [Node.errorOutput]
  rw [← hprimary]
  rfl

theorem completed_rename {retryLimit : Nat} {done : Transfer} {terminal : Terminal}
    {node node' : Node} (h : node.Completed retryLimit done terminal node') :
    node.Completed retryLimit (done.rename σ) (σ terminal) node' := by
  have hrequests : (done.rename σ).requests (σ terminal) = done.requests terminal :=
    congrArg done.requests (σ.symm_apply_apply terminal)
  have hsuppressed : (done.rename σ).suppressedReceiver = some (σ terminal) ↔
      done.suppressedReceiver = some terminal := by
    simp [Transfer.rename]
  cases h with
  | confirmed request hok hrequest => exact .confirmed request hok (hrequests.trans hrequest)
  | received hok hrequest =>
    simp only [← hsuppressed]
    exact .received hok (hrequests.trans hrequest)
  | bystander herror hrequest =>
    rw [← errorOutput_rename (σ := σ)]
    exact .bystander herror (hrequests.trans hrequest)
  | retried request herror hrequest hattempt hfree =>
    rw [← errorOutput_rename (σ := σ)]
    exact .retried request herror (hrequests.trans hrequest) hattempt hfree
  | exhausted request herror hrequest hattempt =>
    rw [← errorOutput_rename (σ := σ)]
    exact .exhausted request herror (hrequests.trans hrequest) hattempt

theorem CompletedAt.rename {done : Transfer} (hσ : b.Permutes σ) (h : CompletedAt now b done b') :
    CompletedAt now (b.rename σ) (done.rename σ) (b'.rename σ) where
  onWire_eq := by
    simp only [Bus.rename, h.onWire_eq, Option.map_some]
  ends_eq := h.ends_eq
  completed := fun n hn => by
    obtain ⟨n, rfl⟩ := σ.surjective n
    rw [rename_nodes, rename_nodes]
    exact completed_rename (h.completed n ((hσ n).symm.trans hn))
  inactive := fun n hn => h.inactive (σ.symm n) ((hσ.symm n).trans hn)
  bus_eq := by
    refine (congrArg (Bus.rename σ) h.bus_eq).trans ?_
    rfl

theorem rename_reportDue (hσ : b.Permutes σ) :
    (b.rename σ).reportDue now = (b.reportDue now).rename σ := by
  simp only [reportDue]
  by_cases hdue : b.formatErrorsDue ≠ some now
  · rw [if_pos hdue]
    exact if_pos hdue
  · rw [if_neg hdue]
    refine (if_neg hdue).trans ?_
    simp only [Bus.rename, hσ.symm _]
    rfl

@[simp] theorem reportDue_activeNodes : (b.reportDue now).activeNodes = b.activeNodes := by
  simp only [reportDue]
  split <;> rfl

end Transmission

/-! ## Calls -/

section Calls

variable {σ : Equiv.Perm Terminal} {b b' : Bus} {now : Int}

theorem tick_rename (hσ : b.Permutes σ) (h : b.tick now = .ok b') :
    (b.rename σ).tick now = .ok (b'.rename σ) := by
  have hactive := (call_design (show b.call (.tick now) = .ok b' from h)).1
  obtain ⟨hdue, ended, hended, rfl⟩ := tick_eq_ok_iff.mp h
  rw [tick_eq_ok_iff, rename_nextEvent, rename_isCompletion]
  refine ⟨hdue, ended.rename σ, ?_, ?_⟩
  · cases hcompletion : b.isCompletion now with
    | true =>
      rw [hcompletion] at hended
      obtain ⟨done, hcompleted⟩ := complete_eq_ok_iff.mp hended
      exact complete_eq_ok_iff.mpr ⟨_, hcompleted.rename hσ⟩
    | false =>
      rw [hcompletion] at hended
      exact congrArg (Bus.rename σ) hended
  · refine (rename_reportDue (hσ.congr ?_)).symm
    rwa [reportDue_activeNodes] at hactive

theorem receive_rename {inputs : Terminal → Bytes} (hσ : b.Permutes σ)
    (h : b.receive inputs now = .ok b') :
    (b.rename σ).receive (fun n => inputs (σ.symm n)) now = .ok (b'.rename σ) := by
  obtain ⟨hrange, hskipped, next, hcommit, hnext⟩ := receive_eq_ok_iff.mp h
  have hwire : (next.rename σ).onWire = none ↔ next.onWire = none := by
    simp [Bus.rename]
  rw [receive_eq_ok_iff, rename_nextEvent]
  refine ⟨hrange, hskipped, next.rename σ, commit_rename hσ hcommit, ?_⟩
  rw [rename_hasPending, hwire]
  refine hnext.imp ?_ ?_
  · rintro ⟨hidle, hpending, hfrom, harbitrate⟩
    refine ⟨hidle, hpending, hfrom, ?_⟩
    obtain ⟨chosen, requests, harbitrated⟩ := arbitrate_eq_ok_iff.mp harbitrate
    obtain ⟨s, hcommitted⟩ := commit_spec hcommit
    obtain ⟨chosen', harbitrated'⟩ := harbitrated.rename (hσ.congr hcommitted.activeNodes_eq)
    exact arbitrate_eq_ok_iff.mpr ⟨chosen', _, harbitrated'⟩
  · rintro ⟨hnot, rfl⟩
    exact ⟨hnot, rfl⟩

theorem call_rename {call : Call} (hσ : b.Permutes σ) (h : b.call call = .ok b') :
    (b.rename σ).call (call.rename σ) = .ok (b'.rename σ) := by
  cases call with
  | receive inputs now => exact receive_rename hσ h
  | tick now => exact tick_rename hσ h
  | clearOutputs =>
    cases h
    rfl

theorem run_rename {calls : List Call} (hσ : b.Permutes σ) (h : b.run calls = .ok b') :
    (b.rename σ).run (calls.map (Call.rename σ)) = .ok (b'.rename σ) := by
  induction calls generalizing b with
  | nil =>
    cases h
    rfl
  | cons call rest ih =>
    rw [run, foldlM_cons, bind_eq_ok] at h
    obtain ⟨b₁, hcall, hrest⟩ := h
    rw [run, map_cons, foldlM_cons, call_rename hσ hcall]
    exact ih (hσ.congr (call_design hcall).1) hrest

end Calls

end Bus

/-! ## The configuration -/

section Configuration

variable {σ : Equiv.Perm Terminal}

theorem terminalOf_succ (n : Terminal) : Bus.terminalOf (n.val + 1) = n := by
  simp [Bus.terminalOf]

theorem renameNode_succ (n : Terminal) : renameNode σ (n.val + 1) = (σ n).val + 1 := by
  rw [renameNode, if_pos ⟨by omega, n.isLt⟩, terminalOf_succ]

theorem renameNode_cases (σ : Equiv.Perm Terminal) (node : Nat) :
    (∃ n : Terminal, node = n.val + 1) ∨
      (¬ (1 ≤ node ∧ node ≤ terminalCapacity) ∧ renameNode σ node = node) := by
  by_cases hnode : 1 ≤ node ∧ node ≤ terminalCapacity
  · exact .inl ⟨⟨node - 1, by omega⟩, by simp; omega⟩
  · exact .inr ⟨hnode, if_neg hnode⟩

theorem renameNode_symm (node : Nat) : renameNode σ.symm (renameNode σ node) = node := by
  rcases renameNode_cases σ node with ⟨n, rfl⟩ | ⟨hnode, hsame⟩
  · rw [renameNode_succ, renameNode_succ, σ.symm_apply_apply]
  · rw [hsame, renameNode, if_neg hnode]

theorem Configuration.rename_symm (c : Configuration) : (c.rename σ).rename σ.symm = c := by
  simp [Configuration.rename, FaultRuleInput.rename, renameNode_symm, Function.comp_def]

/-- A permutation of the terminals that keeps the active ones active. -/
abbrev Configuration.Permutes (c : Configuration) (σ : Equiv.Perm Terminal) : Prop :=
  ∀ n : Terminal, (σ n).val < c.activeNodes ↔ n.val < c.activeNodes

theorem renameNode_active {activeNodes node : Nat} (hcapacity : activeNodes ≤ terminalCapacity)
    (hσ : ∀ n : Terminal, (σ n).val < activeNodes ↔ n.val < activeNodes)
    (h : 1 ≤ node ∧ node ≤ activeNodes) :
    (1 ≤ renameNode σ node ∧ renameNode σ node ≤ activeNodes) ∧
      Bus.terminalOf (renameNode σ node) = σ (Bus.terminalOf node) := by
  rcases renameNode_cases σ node with ⟨n, rfl⟩ | ⟨hnode, _⟩
  · rw [renameNode_succ, terminalOf_succ, terminalOf_succ]
    exact ⟨⟨by omega, (hσ n).mpr h.2⟩, rfl⟩
  · exact absurd ⟨h.1, h.2.trans hcapacity⟩ hnode

theorem renameNode_injective : Function.Injective (renameNode σ) :=
  Function.LeftInverse.injective renameNode_symm

theorem configureRule_rename {activeNodes retryLimit : Nat}
    (hcapacity : activeNodes ≤ terminalCapacity)
    (hσ : ∀ n : Terminal, (σ n).val < activeNodes ↔ n.val < activeNodes) {input : FaultRuleInput}
    {rule : FaultRule} (h : Bus.configureRule activeNodes retryLimit input = .ok rule) :
    Bus.configureRule activeNodes retryLimit (input.rename σ) = .ok (rule.rename σ) := by
  simp only [Bus.configureRule, require_bind_eq_ok] at h ⊢
  obtain ⟨hkind, hsender, hid, hwindow, hoccurrence, hattempt, h⟩ := h
  obtain ⟨hsender', hterminal⟩ := renameNode_active hcapacity hσ hsender
  refine ⟨hkind, hsender', hid, hwindow, hoccurrence, hattempt, ?_⟩
  by_cases hfailure : input.kind = 1
  · rw [if_pos hfailure, require_bind_eq_ok] at h
    obtain ⟨hreceiver, h⟩ := h
    cases h
    refine (if_pos hfailure).trans ?_
    rw [require_bind_eq_ok]
    refine ⟨?_, ?_⟩
    · simp only [FaultRuleInput.rename, hreceiver]
      rfl
    · simp only [FaultRuleInput.rename, hterminal]
      rfl
  · rw [if_neg hfailure, require_bind_eq_ok] at h
    obtain ⟨⟨hfirst, hlast, hne⟩, h⟩ := h
    cases h
    obtain ⟨hreceiver, hreceiver'⟩ := renameNode_active hcapacity hσ ⟨hfirst, hlast⟩
    refine (if_neg hfailure).trans ?_
    rw [require_bind_eq_ok]
    refine ⟨⟨hreceiver.1, hreceiver.2, renameNode_injective.ne hne⟩, ?_⟩
    simp only [FaultRuleInput.rename, hterminal, hreceiver']
    rfl

theorem Configuration.start_rename {c : Configuration} {b : Bus} (hσ : c.Permutes σ)
    (h : c.start = .ok b) : (c.rename σ).start = .ok (b.rename σ) := by
  simp only [Configuration.start, Bus.configure] at h ⊢
  rw [bind_eq_ok] at h ⊢
  obtain ⟨x, hlimits, h⟩ := h
  obtain ⟨hactive, _⟩ := Bus.validateConfigurationLimits_eq_ok hlimits
  refine ⟨x, hlimits, ?_⟩
  simp only [require_bind_eq_ok] at h ⊢
  obtain ⟨hcount, hbusy, hnotices, hdue, h⟩ := h
  rw [bind_eq_ok] at h
  obtain ⟨rules, hrules, h⟩ := h
  rw [require_bind_eq_ok] at h
  obtain ⟨hrest, h⟩ := h
  cases h
  refine ⟨?_, hbusy, hnotices, hdue, ?_⟩
  · simpa [Configuration.rename] using hcount
  rw [bind_eq_ok]
  refine ⟨rules.map (FaultRule.rename σ), ?_, ?_⟩
  · simp only [Configuration.rename, ← map_take]
    exact mapM_map_eq_ok hrules fun input _ rule hrule => configureRule_rename hactive.2 hσ hrule
  · rw [require_bind_eq_ok]
    refine ⟨?_, ?_⟩
    · simp only [Configuration.rename, ← map_drop]
      intro input hinput
      obtain ⟨before, hbefore, rfl⟩ := mem_map.mp hinput
      rw [hrest before hbefore]
      rfl
    · simp only [Bus.rename, map_map]
      rfl

end Configuration

namespace Bus

section Runs

variable {c : Configuration} {σ : Equiv.Perm Terminal} {calls : List Call}

theorem Reaches.rename {b : Bus} (hσ : c.Permutes σ) (h : Reaches c calls b) :
    Reaches (c.rename σ) (calls.map (Call.rename σ)) (b.rename σ) := by
  obtain ⟨start, hstart, hrun⟩ := h
  have hpermutes : start.Permutes σ := by
    obtain ⟨rules, _, _, rfl⟩ := start_spec hstart
    intro n
    simp only [isActive, hσ n]
  exact ⟨start.rename σ, Configuration.start_rename hσ hstart, run_rename hpermutes hrun⟩

theorem reaches_rename_iff {b' : Bus} (hσ : c.Permutes σ) :
    Reaches (c.rename σ) (calls.map (Call.rename σ)) b' ↔
      ∃ b, Reaches c calls b ∧ b' = b.rename σ := by
  constructor
  · intro h
    have hsymm : (c.rename σ).Permutes σ.symm := fun n => by
      have hn := hσ (σ.symm n)
      rw [σ.apply_symm_apply] at hn
      exact hn.symm
    have hback := h.rename hsymm
    rw [Configuration.rename_symm] at hback
    refine ⟨b'.rename σ.symm, ?_, (rename_symm σ.symm b').symm⟩
    simpa [Function.comp_def, Call.rename_symm] using hback
  · rintro ⟨b, h, rfl⟩
    exact h.rename hσ

/-- The call with a given index throws, and none before it. -/
def ThrowsAt (c : Configuration) (calls : List Call) (k : Nat) : Prop :=
  ∃ b call message, Reaches c (calls.take k) b ∧ calls[k]? = some call ∧
    b.call call = .error message

theorem Reaches.permutes {b : Bus} (hσ : c.Permutes σ) (h : Reaches c calls b) :
    b.Permutes σ := fun n => by
  simp only [isActive, h.design.1, hσ n]

theorem throwsAt_rename_iff (hσ : c.Permutes σ) {k : Nat} :
    ThrowsAt (c.rename σ) (calls.map (Call.rename σ)) k ↔ ThrowsAt c calls k := by
  simp only [ThrowsAt, ← map_take, reaches_rename_iff hσ, getElem?_map, Option.map_eq_some_iff]
  constructor
  · rintro ⟨_, _, message, ⟨b, hb, rfl⟩, ⟨call, hcall, rfl⟩, hthrows⟩
    cases hresult : b.call call with
    | error message => exact ⟨b, call, message, hb, hcall, hresult⟩
    | ok b₁ =>
      rw [call_rename (hb.permutes hσ) hresult] at hthrows
      cases hthrows
  · rintro ⟨b, call, message, hb, hcall, hthrows⟩
    cases hresult : (b.rename σ).call (call.rename σ) with
    | error message => exact ⟨_, _, message, ⟨b, hb, rfl⟩, ⟨call, hcall, rfl⟩, hresult⟩
    | ok b₁ =>
      -- Renamed back, the call would succeed.
      have hpermutes : (b.rename σ).Permutes σ.symm := (hb.permutes hσ).symm
      have hback := call_rename hpermutes hresult
      rw [rename_symm, Call.rename_symm, hthrows] at hback
      cases hback

/-- Under a permutation of the active terminals a Run throws at the same call
and otherwise goes through the renamed states, with the outputs of every
terminal at the terminal it is renamed to. -/
theorem terminal_symmetry (c : Configuration) (σ : Equiv.Perm Terminal) (hσ : c.Permutes σ)
    (calls : List Call) :
    (∀ k, ThrowsAt (c.rename σ) (calls.map (Call.rename σ)) k ↔ ThrowsAt c calls k) ∧
      (∀ b', Reaches (c.rename σ) (calls.map (Call.rename σ)) b' ↔
        ∃ b, Reaches c calls b ∧ b' = b.rename σ) ∧
      ∀ k b, Reaches c (calls.take k) b →
        ∃ b', Reaches (c.rename σ) ((calls.map (Call.rename σ)).take k) b' ∧
          ∀ n, (b'.nodes (σ n)).output = (b.nodes n).output := by
  refine ⟨fun k => throwsAt_rename_iff hσ, fun b' => reaches_rename_iff hσ, fun k b h => ?_⟩
  refine ⟨b.rename σ, ?_, fun n => by rw [rename_nodes]⟩
  rw [← map_take]
  exact h.rename hσ

/-- With the two terminals exchanged it is the second one that retries. -/
theorem terminal_symmetry_swap :
    faultyPair.Permutes (Equiv.swap 0 1) ∧ ∃ b, Reaches (faultyPair.rename (Equiv.swap 0 1))
          ([.receive faultyInputs 0, .tick 376000].map (Call.rename (Equiv.swap 0 1))) b ∧
        (b.nodes 1).retry.map Request.attempt = some 2 := by
  have hpermutes : faultyPair.Permutes (Equiv.swap 0 1) := by decide
  obtain ⟨b, hreaches, hretry⟩ := exists_retry
  obtain ⟨_, hsame, _⟩ := terminal_symmetry faultyPair (Equiv.swap 0 1) hpermutes
    [.receive faultyInputs 0, .tick 376000]
  refine ⟨hpermutes, b.rename (Equiv.swap 0 1), (hsame _).mpr ⟨b, hreaches, rfl⟩, ?_⟩
  have hnode : (b.rename (Equiv.swap 0 1)).nodes 1 = b.nodes 0 := b.rename_nodes _ 0
  rw [hnode]
  exact hretry

end Runs

end Bus
end SilFormal.Can
