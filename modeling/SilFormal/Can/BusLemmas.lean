import SilFormal.Can.Bus

/-!
# What the calls of the bus do

For each function of the bus model one statement of when it succeeds and of
what it then leaves.  The proofs about whole Runs use these and do not unfold
the functions.
-/

namespace SilFormal.Can

open Fallible List

namespace Bus

@[simp] theorem mem_active {b : Bus} {n : Terminal} : n ∈ b.active ↔ b.isActive n = true := by
  simp [active]

theorem active_nodup (b : Bus) : b.active.Nodup :=
  (nodup_finRange _).filter _

/-- Whether a terminal is active depends on the number of active nodes only. -/
theorem isActive_congr {b b' : Bus} (h : b'.activeNodes = b.activeNodes) (n : Terminal) :
    b'.isActive n = b.isActive n := by
  simp only [isActive, h]

theorem modify_nodes (b : Bus) (terminal : Terminal) (f : Node → Node) (n : Terminal) :
    (b.modify terminal f).nodes n = if n = terminal then f (b.nodes n) else b.nodes n := by
  by_cases h : n = terminal
  · subst h
    simp [modify]
  · simp [modify, h]

@[simp] theorem modify_formatErrorsDue (b : Bus) (terminal : Terminal) (f : Node → Node) :
    (b.modify terminal f).formatErrorsDue = b.formatErrorsDue := rfl

theorem hasPending_eq_true {b : Bus} : b.hasPending = true ↔ ∃ n, (b.nodes n).head? ≠ none := by
  simp only [hasPending, Bool.or_eq_true, any_eq_true, Node.head?]
  constructor
  · rintro (⟨n, hqueue⟩ | ⟨n, hretry⟩)
    · refine ⟨n, ?_⟩
      cases (b.nodes n).retry with
      | some request => simp
      | none =>
        cases hq : (b.nodes n).queue with
        | nil => simp [hq] at hqueue
        | cons request rest => simp
    · refine ⟨n, ?_⟩
      cases hr : (b.nodes n).retry with
      | some request => simp
      | none => simp [hr] at hretry
  · rintro ⟨n, hhead⟩
    cases hr : (b.nodes n).retry with
    | some request => exact .inr ⟨n, by simp [hr]⟩
    | none =>
      refine .inl ⟨n, ?_⟩
      cases hq : (b.nodes n).queue with
      | nil => simp [hr, hq] at hhead
      | cons request rest => simp

end Bus

/-! ## Decoded operations -/

/-- What the bus reads an operation as. -/
inductive Operation
  | bitrate (rate : Nat)
  | behavior (discards : Bool)
  | transmit (op : Bytes)
  | corrupt (op : Bytes)
  | refused (message : String)

/-- The case distinction of `accept` and `apply`. -/
def Operation.decode (op : Bytes × Bool) : Operation :=
  if op.2 && wellFormed op.1 then
    if u32 op.1 0 = configurationCode ∧ byteAt op.1 8 = bitrateKind then
      .bitrate (u32 op.1 9)
    else if u32 op.1 0 = configurationCode ∧ byteAt op.1 8 = arbitrationLostBehaviorKind then
      .behavior (byteAt op.1 9 == discardAndNotify)
    else if u32 op.1 0 = transmitCode ∧ byteAt op.1 12 = 0 ∧ byteAt op.1 13 = 0 then
      .transmit op.1
    else if u32 op.1 0 = transmitCode then
      .refused "only 11-bit Classical CAN data frames are supported"
    else .refused "unsupported CAN operation"
  else .corrupt op.1

/-- An operation that the bus transmits as a data frame. -/
structure TransmitsFrame (op : Bytes) : Prop where
  length_eq : op.length = 16 + u16 op 14
  data_le : u16 op 14 ≤ 8
  id_le : u32 op 8 ≤ maxClassicalIdentifier

theorem Operation.decode_transmit {op : Bytes × Bool} {bytes : Bytes}
    (h : Operation.decode op = .transmit bytes) : TransmitsFrame bytes := by
  simp only [Operation.decode] at h
  split at h
  · rename_i hsound
    rw [Bool.and_eq_true] at hsound
    split at h
    · cases h
    · split at h
      · cases h
      · split at h
        · rename_i hcode
          cases h
          obtain ⟨hlength, hdata, hid⟩ := wellFormed_transmit hsound.2 hcode.1
          refine ⟨hlength, hdata, ?_⟩
          simpa [identifierFits, hcode.2.1] using hid
        · split at h <;> cases h
  · cases h

/-- Whether a rule names a sender and an identifier. -/
def RuleState.Names (terminal : Terminal) (id : Nat) (state : RuleState) : Prop :=
  state.rule.sender = terminal ∧ state.rule.id = id

instance (terminal : Terminal) (id : Nat) (state : RuleState) :
    Decidable (state.Names terminal id) :=
  inferInstanceAs (Decidable (_ ∧ _))

/-- A rule after one more request of a sender and an identifier. -/
def RuleState.count (terminal : Terminal) (id : Nat) (state : RuleState) : RuleState :=
  if state.Names terminal id then { state with occurrences := state.occurrences + 1 }
  else state

/-- The occurrence that a request of a sender and an identifier is given. -/
def RuleState.nextOccurrence (terminal : Terminal) (id : Nat) (rules : List RuleState)
    (occurrence : Nat) : Nat :=
  rules.foldl (fun occurrence state =>
    if state.Names terminal id then state.occurrences + 1 else occurrence) occurrence

namespace Bus

variable {terminal : Terminal}

theorem countOccurrence_eq_ok_iff {id occurrence : Nat} {rules : List RuleState}
    {out : List RuleState × Nat} :
    countOccurrence terminal id rules occurrence = .ok out ↔
      (∀ state ∈ rules, state.Names terminal id → state.occurrences < 2 ^ 64 - 1) ∧
        out = (rules.map (RuleState.count terminal id),
          RuleState.nextOccurrence terminal id rules occurrence) := by
  induction rules generalizing occurrence out with
  | nil => simp [countOccurrence, RuleState.nextOccurrence, eq_comm]
  | cons state rest ih =>
    by_cases hnames : state.Names terminal id
    · have hcond : ¬ (state.rule.sender ≠ terminal ∨ state.rule.id ≠ id) := by
        rw [not_or, not_not, not_not]
        exact hnames
      rw [countOccurrence, if_neg hcond, require_bind_eq_ok, bind_eq_ok]
      simp only [ih, forall_mem_cons, map_cons, RuleState.count,
        RuleState.nextOccurrence, foldl_cons, hnames, forall_const]
      constructor
      · rintro ⟨hlt, _, ⟨hrest, rfl⟩, hout⟩
        cases hout
        exact ⟨⟨hlt, hrest⟩, rfl⟩
      · rintro ⟨⟨hlt, hrest⟩, rfl⟩
        exact ⟨hlt, _, ⟨hrest, rfl⟩, rfl⟩
    · have hcond : state.rule.sender ≠ terminal ∨ state.rule.id ≠ id := by
        rw [← not_and_or]
        exact hnames
      rw [countOccurrence, if_pos hcond, bind_eq_ok]
      simp only [ih, forall_mem_cons, map_cons, RuleState.count,
        RuleState.nextOccurrence, foldl_cons, hnames, false_imp_iff, true_and]
      constructor
      · rintro ⟨_, ⟨hrest, rfl⟩, hout⟩
        cases hout
        exact ⟨hrest, rfl⟩
      · rintro ⟨hrest, rfl⟩
        exact ⟨_, ⟨hrest, rfl⟩, rfl⟩

/-! ## One operation -/

/-- The bus after a Format Error report on an operation. -/
def reported (terminal : Terminal) (op : Bytes) (now : Int) (b : Bus) : Bus :=
  { b.modify terminal fun node =>
      { node with formatError := node.formatError ++ formatErrorHeader op ++ op } with
    formatErrorsDue := some (now + 1) }

/-- The request of a Transmit operation. -/
def requestOf (terminal : Terminal) (op : Bytes) (now : Int) (b : Bus) : Request :=
  ⟨op, u32 op 8, now, RuleState.nextOccurrence terminal (u32 op 8) b.rules 0, 1⟩

/-- When an operation is handled, and what that leaves. -/
inductive Handled (terminal : Terminal) (now : Int) (b : Bus) (requests : Requests) :
    Operation → Bus × Requests → Prop
  | bitrate (rate : Nat) (hrate : supportedBitrate rate = true)
      (hsame : b.bitrate = none ∨ b.bitrate = some rate) :
      Handled terminal now b requests (.bitrate rate)
        ({ b with bitrate := some rate }.modify terminal
          fun node => { node with configured := true }, requests)
  | behavior (discards : Bool) : Handled terminal now b requests (.behavior discards)
        (b.modify terminal fun node => { node with discardsOnLoss := discards }, requests)
  | transmit (op : Bytes)
      (hcount : ∀ state ∈ b.rules, state.Names terminal (u32 op 8) →
        state.occurrences < 2 ^ 64 - 1) :
      Handled terminal now b requests (.transmit op)
        ({ b with rules := b.rules.map (RuleState.count terminal (u32 op 8)) },
          requests ++ [(terminal, b.requestOf terminal op now)])
  | corrupt (op : Bytes) (hnow : now < maxTime)
      (hdue : b.formatErrorsDue = none ∨ b.formatErrorsDue = some (now + 1))
      (hfits : (b.nodes terminal).formatError.length + (10 + op.length) ≤
        b.bufferCapacity - frameEndOutput) :
      Handled terminal now b requests (.corrupt op) (b.reported terminal op now, requests)

theorem reportFormatError_eq_ok_iff {op : Bytes} {now : Int} {b b' : Bus} :
    reportFormatError terminal op now b = .ok b' ↔ now < maxTime ∧
        (b.formatErrorsDue = none ∨ b.formatErrorsDue = some (now + 1)) ∧
        (b.nodes terminal).formatError.length + (10 + op.length) ≤
          b.bufferCapacity - frameEndOutput ∧
        b' = b.reported terminal op now := by
  simp only [reportFormatError, require_bind_eq_ok, Except.ok.injEq, eq_comm (b := b'), reported]

theorem handle_eq_ok_iff {now : Int} {b : Bus} {requests : Requests} {op : Bytes × Bool}
    {s : Bus × Requests} :
    handle terminal now (b, requests) op = .ok s ↔
      Handled terminal now b requests (.decode op) s := by
  rw [handle, Operation.decode]
  by_cases hsound : (op.2 && wellFormed op.1) = true
  · rw [if_pos hsound]
    simp only [apply]
    split
    · simp only [require_bind_eq_ok, Except.ok.injEq]
      constructor
      · rintro ⟨hrate, hsame, rfl⟩
        exact .bitrate _ hrate hsame
      · rintro ⟨⟩
        exact ⟨by assumption, by assumption, rfl⟩
    · split
      · simp only [Except.ok.injEq]
        constructor
        · rintro rfl
          exact .behavior _
        · rintro ⟨⟩
          rfl
      · split
        · simp only [bind_eq_ok, countOccurrence_eq_ok_iff]
          constructor
          · rintro ⟨_, ⟨hcount, rfl⟩, hs⟩
            cases hs
            exact .transmit _ hcount
          · rintro ⟨⟩
            exact ⟨_, ⟨by assumption, rfl⟩, rfl⟩
        · split
          · constructor
            · rintro ⟨⟩
            · rintro ⟨⟩
          · constructor
            · rintro ⟨⟩
            · rintro ⟨⟩
  · rw [if_neg hsound, if_neg hsound, bind_eq_ok]
    simp only [reportFormatError_eq_ok_iff]
    constructor
    · rintro ⟨_, ⟨hnow, hdue, hfits, rfl⟩, hs⟩
      cases hs
      exact .corrupt _ hnow hdue hfits
    · rintro ⟨⟩
      exact ⟨_, ⟨by assumption, by assumption, by assumption, rfl⟩, rfl⟩

/-! ## All operations of an event -/

/-- The requests of one terminal among those of an event. -/
def stagedBy (requests : Requests) (terminal : Terminal) : List Request :=
  (requests.filter fun staged => staged.1 = terminal).map Prod.snd

theorem stagedBy_append (requests more : Requests) (terminal : Terminal) :
    stagedBy (requests ++ more) terminal =
      stagedBy requests terminal ++ stagedBy more terminal := by
  simp [stagedBy]

theorem stagedBy_singleton (sender : Terminal) (request : Request) (terminal : Terminal) :
    stagedBy [(sender, request)] terminal = if sender = terminal then [request] else [] := by
  by_cases h : sender = terminal
  · simp [stagedBy, h]
  · simp [stagedBy, h]

theorem mem_stagedBy {requests : Requests} {request : Request} :
    request ∈ stagedBy requests terminal ↔ (terminal, request) ∈ requests := by
  simp [stagedBy]

end Bus

/-- The requests of an event that a rule counts. -/
def RuleState.counted (staged : Terminal → List Request) (state : RuleState) : List Request :=
  (staged state.rule.sender).filter fun request => request.id = state.rule.id

/-- A rule after the requests of an event. -/
def RuleState.advance (staged : Terminal → List Request) (state : RuleState) : RuleState :=
  { state with
    occurrences := state.occurrences + (state.counted staged).length }

/-- The rules of one sender and identifier hold the same counter. -/
def RuleState.Uniform (rules : List RuleState) : Prop :=
  ∀ state ∈ rules, ∀ other ∈ rules, other.Names state.rule.sender state.rule.id →
    other.occurrences = state.occurrences

/-- With uniform counters it does not matter which of them numbers a request. -/
theorem RuleState.nextOccurrence_eq {terminal : Terminal} {id count : Nat} {rules : List RuleState}
    {occurrence : Nat}
    (hcount : ∀ state ∈ rules, state.Names terminal id → state.occurrences = count)
    (h : occurrence = count + 1 ∨ ∃ state ∈ rules, state.Names terminal id) :
    RuleState.nextOccurrence terminal id rules occurrence = count + 1 := by
  induction rules generalizing occurrence with
  | nil =>
    rcases h with h | ⟨_, hmem, _⟩
    · exact h
    · cases hmem
  | cons state rest ih =>
    rw [nextOccurrence, foldl_cons]
    refine ih (fun other hother => hcount other (mem_cons_of_mem _ hother)) ?_
    by_cases hnames : state.Names terminal id
    · rw [if_pos hnames, hcount state (by simp) hnames]
      exact .inl rfl
    · rw [if_neg hnames]
      refine h.imp_right ?_
      rintro ⟨other, hother, hother'⟩
      rcases mem_cons.mp hother with rfl | hrest
      · exact absurd hother' hnames
      · exact ⟨other, hrest, hother'⟩

/-- A request as an event at an instant makes it. -/
structure Request.Fresh (now : Int) (request : Request) : Prop where
  transmits : TransmitsFrame request.operation
  id_eq : request.id = u32 request.operation 8
  requestedAt_eq : request.requestedAt = now
  attempt_eq : request.attempt = 1

namespace Bus

/-- What accepting operations at an instant leaves of a bus, together with the
requests that they made. -/
structure Accepted (now : Int) (b : Bus) (s : Bus × Requests) : Prop where
  bus_eq : s.1 = { b with
    nodes := s.1.nodes, formatErrorsDue := s.1.formatErrorsDue, rules := s.1.rules,
    bitrate := s.1.bitrate }
  node_eq : ∀ n, s.1.nodes n = { b.nodes n with
    formatError := (s.1.nodes n).formatError, configured := (s.1.nodes n).configured,
    discardsOnLoss := (s.1.nodes n).discardsOnLoss }
  rules_eq : s.1.rules = b.rules.map (RuleState.advance (stagedBy s.2))
  bitrate_cases : s.1.bitrate = b.bitrate ∨
    b.bitrate = none ∧ ∃ rate, supportedBitrate rate = true ∧ s.1.bitrate = some rate
  due_cases : (s.1.formatErrorsDue = b.formatErrorsDue ∧
      ∀ n, (s.1.nodes n).formatError = (b.nodes n).formatError) ∨
    (s.1.formatErrorsDue = some (now + 1) ∧ now < maxTime ∧
      (b.formatErrorsDue = none ∨ b.formatErrorsDue = some (now + 1)))
  formatError_cases : ∀ n, (s.1.nodes n).formatError = (b.nodes n).formatError ∨
    (s.1.nodes n).formatError.length ≤ b.bufferCapacity - frameEndOutput
  inactive : ∀ n, b.isActive n = false →
    (s.1.nodes n).formatError = (b.nodes n).formatError ∧ stagedBy s.2 n = []
  fresh : ∀ staged ∈ s.2, staged.2.Fresh now
  numbered : RuleState.Uniform b.rules → ∀ state ∈ b.rules,
    (state.counted (stagedBy s.2)).map Request.occurrence =
      List.range' (state.occurrences + 1) (state.counted (stagedBy s.2)).length

namespace Accepted

variable {now : Int} {b : Bus} {s : Bus × Requests} {terminal : Terminal}

theorem refl (now : Int) (b : Bus) : Accepted now b (b, []) where
  bus_eq := rfl
  node_eq := fun _ => rfl
  rules_eq := (map_id _).symm
  bitrate_cases := .inl rfl
  due_cases := .inl ⟨rfl, fun _ => rfl⟩
  formatError_cases := fun _ => .inl rfl
  inactive := fun _ _ => ⟨rfl, rfl⟩
  fresh := by simp
  numbered := fun _ _ _ => rfl

theorem activeNodes_eq (h : Accepted now b s) : s.1.activeNodes = b.activeNodes := by
  rw [h.bus_eq]

theorem bufferCapacity_eq (h : Accepted now b s) : s.1.bufferCapacity = b.bufferCapacity := by
  rw [h.bus_eq]

/-- The requests that a rule counts grow by those that it names. -/
theorem counted_append (state : RuleState) (requests : Requests) (terminal : Terminal)
    (request : Request) :
    state.counted (stagedBy (requests ++ [(terminal, request)])) =
      state.counted (stagedBy requests) ++
        if state.Names terminal request.id then [request] else [] := by
  simp only [RuleState.counted, RuleState.Names, stagedBy_append, stagedBy_singleton]
  by_cases hsender : state.rule.sender = terminal
  · by_cases hid : state.rule.id = request.id
    · simp [hsender, hid]
    · simp [hid, Ne.symm hid]
  · simp [hsender, Ne.symm hsender]

/-- The rules count the requests as they are made. -/
theorem advance_append (requests : Requests) (terminal : Terminal) (request : Request)
    (rules : List RuleState) :
    (rules.map (RuleState.advance (stagedBy requests))).map
        (RuleState.count terminal request.id) =
      rules.map (RuleState.advance (stagedBy (requests ++ [(terminal, request)]))) := by
  rw [map_map]
  refine map_congr_left fun state _ => ?_
  rw [Function.comp_apply, RuleState.count]
  by_cases h : state.Names terminal request.id
  · rw [if_pos (show (state.advance (stagedBy requests)).Names terminal request.id from h)]
    simp [RuleState.advance, counted_append, h, Nat.add_assoc]
  · rw [if_neg (show ¬ (state.advance (stagedBy requests)).Names terminal request.id from h)]
    simp [RuleState.advance, counted_append, h]

/-- A request gets the number after those that its rules have counted. -/
theorem requestOf_occurrence {b₁ : Bus} {requests : Requests} {op : Bytes} {state : RuleState}
    (huniform : RuleState.Uniform b.rules) (hstate : state ∈ b.rules)
    (hnames : state.Names terminal (u32 op 8))
    (hrules : b₁.rules = b.rules.map (RuleState.advance (stagedBy requests))) :
    (b₁.requestOf terminal op now).occurrence =
      state.occurrences + (state.counted (stagedBy requests)).length + 1 := by
  refine RuleState.nextOccurrence_eq (fun other hother hothernames => ?_) (.inr ?_)
  · rw [hrules] at hother
    obtain ⟨origin, horigin, rfl⟩ := mem_map.mp hother
    have hsame : origin.Names state.rule.sender state.rule.id := by
      rw [hnames.1, hnames.2]
      exact hothernames
    simp only [RuleState.advance, RuleState.counted, hsame.1, hsame.2,
      huniform state hstate origin horigin hsame]
  · refine ⟨state.advance (stagedBy requests), ?_, hnames⟩
    rw [hrules]
    exact mem_map_of_mem hstate

/-- A bitrate and a behavior reach the configuration of their node only. -/
theorem configure {bitrate : Option Nat} {f : Node → Node} (h : Accepted now b s)
    (hbitrate : bitrate = b.bitrate ∨
      b.bitrate = none ∧ ∃ rate, supportedBitrate rate = true ∧ bitrate = some rate)
    (hf : ∀ node, f node = { node with
      configured := (f node).configured, discardsOnLoss := (f node).discardsOnLoss }) :
    Accepted now b ({ s.1 with bitrate := bitrate }.modify terminal f, s.2) := by
  have hformat : ∀ n, (({ s.1 with bitrate := bitrate }.modify terminal f).nodes n).formatError =
      (s.1.nodes n).formatError := by
    intro n
    rw [modify_nodes]
    split
    · rw [hf]
    · rfl
  exact {
    bus_eq := by
      have hbus := h.bus_eq
      simp only [modify]
      rw [hbus]
    node_eq := fun n => by
      have hnode := h.node_eq n
      rw [modify_nodes]
      split
      · rw [hf, hnode]
      · exact hnode
    rules_eq := h.rules_eq
    bitrate_cases := hbitrate
    due_cases := by simpa only [hformat, modify_formatErrorsDue] using h.due_cases
    formatError_cases := by simpa only [hformat] using h.formatError_cases
    inactive := by simpa only [hformat] using h.inactive
    fresh := h.fresh
    numbered := h.numbered }

theorem handle {s' : Bus × Requests} {op : Bytes × Bool} (h : Accepted now b s)
    (hactive : b.isActive terminal = true) (hop : Bus.handle terminal now s op = .ok s') :
    Accepted now b s' := by
  obtain ⟨b₁, requests⟩ := s
  have hhandled := handle_eq_ok_iff.mp hop
  generalize hdecode : Operation.decode op = operation at hhandled
  cases hhandled with
  | bitrate rate hrate hsame =>
    refine h.configure ?_ fun _ => rfl
    rcases h.bitrate_cases with heq | ⟨hnone, _⟩
    · rcases hsame with hnone | hsome
      · exact .inr ⟨heq ▸ hnone, rate, hrate, rfl⟩
      · exact .inl (hsome.symm.trans heq)
    · exact .inr ⟨hnone, rate, hrate, rfl⟩
  | behavior discards => exact h.configure h.bitrate_cases fun _ => rfl
  | transmit bytes hcount =>
    have hframe := Operation.decode_transmit hdecode
    exact {
      bus_eq := by
        have hbus := h.bus_eq
        simp only at hbus ⊢
        rw [hbus]
      node_eq := h.node_eq
      rules_eq := by
        rw [show b₁.rules = b.rules.map (RuleState.advance (stagedBy requests)) from h.rules_eq]
        exact advance_append requests terminal (b₁.requestOf terminal bytes now) b.rules
      bitrate_cases := h.bitrate_cases
      due_cases := h.due_cases
      formatError_cases := h.formatError_cases
      inactive := fun n hn => by
        obtain ⟨hformat, hstaged⟩ := h.inactive n hn
        have hne : terminal ≠ n := by
          rintro rfl
          rw [hactive] at hn
          cases hn
        refine ⟨hformat, ?_⟩
        rw [stagedBy_append, hstaged, stagedBy_singleton, if_neg hne, append_nil]
      fresh := fun staged hstaged => by
        rcases mem_append.mp hstaged with hold | hnew
        · exact h.fresh staged hold
        · cases mem_singleton.mp hnew
          exact ⟨hframe, rfl, rfl, rfl⟩
      numbered := fun huniform state hstate => by
        have hold := h.numbered huniform state hstate
        rw [counted_append]
        by_cases hnames : state.Names terminal (u32 bytes 8)
        · rw [if_pos (show state.Names terminal (b₁.requestOf terminal bytes now).id from hnames),
            map_append, hold, length_append, map_singleton,
            requestOf_occurrence huniform hstate hnames h.rules_eq, length_singleton,
            range'_concat]
          simp [Nat.add_right_comm]
        · rw [if_neg (show ¬ state.Names terminal (b₁.requestOf terminal bytes now).id from
            hnames), append_nil]
          exact hold }
  | corrupt bytes hnow hdue hfits =>
    have hkept : ∀ n, n ≠ terminal →
        ((b₁.reported terminal bytes now).nodes n).formatError = (b₁.nodes n).formatError := by
      intro n hn
      simp only [reported, modify_nodes, if_neg hn]
    exact {
      bus_eq := by
        have hbus := h.bus_eq
        simp only at hbus ⊢
        simp only [reported, modify]
        rw [hbus]
      node_eq := fun n => by
        have hnode := h.node_eq n
        simp only [reported, modify_nodes] at hnode ⊢
        split <;> (rw [hnode])
      rules_eq := h.rules_eq
      bitrate_cases := h.bitrate_cases
      due_cases := by
        refine .inr ⟨rfl, hnow, ?_⟩
        rcases h.due_cases with ⟨hsame, _⟩ | ⟨_, _, hbefore⟩
        · exact hsame ▸ hdue
        · exact hbefore
      formatError_cases := fun n => by
        by_cases hn : n = terminal
        · refine .inr ?_
          rw [← h.bufferCapacity_eq]
          simp only [reported, modify_nodes, hn, if_true, length_append, formatErrorHeader_length]
          omega
        · rw [hkept n hn]
          exact h.formatError_cases n
      inactive := fun n hn => by
        have hne : n ≠ terminal := by
          rintro rfl
          rw [hactive] at hn
          cases hn
        rw [hkept n hne]
        exact h.inactive n hn
      fresh := h.fresh
      numbered := h.numbered }

theorem acceptFrom {s' : Bus × Requests} {inputs : Terminal → Bytes} (h : Accepted now b s)
    (hs' : Bus.acceptFrom inputs now s terminal = .ok s') : Accepted now b s' := by
  simp only [Bus.acceptFrom, require_bind_eq_ok] at hs'
  obtain ⟨hinput, _, hfold⟩ := hs'
  rcases hinput with hactive | hempty
  · rw [isActive_congr h.activeNodes_eq] at hactive
    exact foldlM_invariant (fun _ _ _ _ hs hop => handle hs hactive hop) hfold h
  · rw [hempty] at hfold
    cases hfold
    exact h

end Accepted

/-- The bus with requests appended to its queues. -/
def enqueued (staged : Terminal → List Request) (b : Bus) : Bus :=
  { b with
    nodes := fun n =>
      { b.nodes n with
        queue := (b.nodes n).queue ++ staged n
        history := (b.nodes n).history ++ (staged n).map (NodeEvent.mk .committed) } }

theorem enqueued_enqueued (first second : Terminal → List Request) (b : Bus) :
    (b.enqueued first).enqueued second = b.enqueued fun n => first n ++ second n := by
  simp [enqueued]

theorem enqueued_nil (b : Bus) : (b.enqueued fun _ => []) = b := by
  simp [enqueued]

theorem enqueue_eq_ok_iff {b b' : Bus} {staged : Terminal × Request} :
    b.enqueue staged = .ok b' ↔ (b.bitrate ≠ none ∧ ∀ n ∈ b.active, (b.nodes n).configured = true) ∧
        (b.nodes staged.1).queue.length < b.queueCapacity ∧
        b' = b.enqueued (stagedBy [staged]) := by
  have hresult : (b.modify staged.1 fun node =>
      { node with queue := node.queue ++ [staged.2] }.note .committed staged.2) =
      b.enqueued (stagedBy [staged]) := by
    simp only [modify, enqueued, Bus.mk.injEq, true_and, and_true]
    funext n
    rw [stagedBy_singleton staged.1 staged.2]
    by_cases hn : n = staged.1
    · subst hn
      simp [Node.note]
    · simp [hn, Ne.symm hn]
  simp only [enqueue, require_bind_eq_ok, Except.ok.injEq, hresult, eq_comm (b := b'), and_assoc]

/-- The second loop of `receive`: it only matters which requests a terminal
made and in which order. -/
theorem foldlM_enqueue_eq_ok_iff {requests : Requests} {b b' : Bus} :
    requests.foldlM enqueue b = .ok b' ↔
      (requests ≠ [] → b.bitrate ≠ none ∧ ∀ n ∈ b.active, (b.nodes n).configured = true) ∧
        (∀ n, stagedBy requests n = [] ∨
          (b.nodes n).queue.length + (stagedBy requests n).length ≤ b.queueCapacity) ∧
        b' = b.enqueued (stagedBy requests) := by
  induction requests generalizing b with
  | nil =>
    have hnil : stagedBy [] = fun _ => [] := rfl
    rw [hnil, enqueued_nil]
    simp [pure, Except.pure, eq_comm (b := b')]
  | cons staged rest ih =>
    have hcons : ∀ n, stagedBy (staged :: rest) n = stagedBy [staged] n ++ stagedBy rest n :=
      stagedBy_append [staged] rest
    have hboth : (b.enqueued (stagedBy [staged])).enqueued (stagedBy rest) =
        b.enqueued (stagedBy (staged :: rest)) := by
      rw [enqueued_enqueued]
      exact congrArg b.enqueued (funext fun n => (hcons n).symm)
    have hroom : (b.nodes staged.1).queue.length < b.queueCapacity ∧ (∀ n, stagedBy rest n = [] ∨
            ((b.enqueued (stagedBy [staged])).nodes n).queue.length +
              (stagedBy rest n).length ≤ (b.enqueued (stagedBy [staged])).queueCapacity) ↔
        ∀ n, stagedBy (staged :: rest) n = [] ∨
          (b.nodes n).queue.length + (stagedBy (staged :: rest) n).length ≤ b.queueCapacity := by
      simp only [enqueued, hcons, stagedBy_singleton staged.1 staged.2, length_append]
      constructor
      · rintro ⟨hfirst, hrest⟩ n
        by_cases hn : staged.1 = n
        · subst hn
          rcases hrest staged.1 with hnil | hle
          · simp only [hnil, if_true, length_nil, length_cons]
            omega
          · omega
        · simpa [hn] using hrest n
      · intro hall
        refine ⟨?_, fun n => ?_⟩
        · have hfirst := hall staged.1
          simp only [if_true, length_cons, cons_append, reduceCtorEq, false_or] at hfirst
          omega
        · by_cases hn : staged.1 = n
          · have hrest := hall n
            simp only [hn, if_true, cons_append, reduceCtorEq, false_or] at hrest ⊢
            omega
          · simpa [hn] using hall n
    rw [foldlM_cons, bind_eq_ok]
    simp only [enqueue_eq_ok_iff, ih, ← hroom]
    constructor
    · rintro ⟨_, ⟨hguard, hfirst, rfl⟩, _, hrest, hb'⟩
      exact ⟨fun _ => hguard, ⟨hfirst, hrest⟩, hboth ▸ hb'⟩
    · rintro ⟨hguard, ⟨hfirst, hrest⟩, rfl⟩
      exact ⟨_, ⟨hguard (by simp), hfirst, rfl⟩, fun _ => hguard (by simp), hrest, hboth.symm⟩

/-- What the operations of one event leave of a bus. -/
structure Committed (now : Int) (b : Bus) (s : Bus × Requests) (b' : Bus) : Prop where
  accepted : Accepted now b s
  ready : s.2 ≠ [] → s.1.bitrate ≠ none ∧ ∀ n ∈ s.1.active, (s.1.nodes n).configured = true
  room : ∀ n, stagedBy s.2 n = [] ∨
    (s.1.nodes n).queue.length + (stagedBy s.2 n).length ≤ s.1.queueCapacity
  bus_eq : b' = s.1.enqueued (stagedBy s.2)

theorem commit_spec {inputs : Terminal → Bytes} {now : Int} {b b' : Bus}
    (h : b.commit inputs now = .ok b') : ∃ s, Committed now b s b' := by
  rw [commit, bind_eq_ok] at h
  obtain ⟨s, haccept, henqueue⟩ := h
  obtain ⟨hready, hroom, hb'⟩ := foldlM_enqueue_eq_ok_iff.mp henqueue
  exact ⟨s, foldlM_invariant (fun _ _ _ _ hs hfrom => hs.acceptFrom hfrom) haccept
    (Accepted.refl now b), hready, hroom, hb'⟩

theorem commit_empty (now : Int) (b : Bus) : b.commit (fun _ => []) now = .ok b := by
  have hfrom : ∀ (s : Bus × Requests) (n : Terminal), acceptFrom (fun _ => []) now s n = .ok s := by
    intro s n
    simp only [acceptFrom, require_bind_eq_ok]
    exact ⟨.inr trivial, Nat.zero_le _, rfl⟩
  have hfold : ∀ (l : List Terminal) (s : Bus × Requests),
      l.foldlM (acceptFrom (fun _ => []) now) s = .ok s := by
    intro l s
    induction l with
    | nil => rfl
    | cons n rest ih => rw [foldlM_cons, hfrom]; exact ih
  rw [commit, hfold]
  rfl

end Bus
end SilFormal.Can
