import SilFormal.Library.Commuting
import SilFormal.Can.BusLemmas

/-!
# The operations of one event in any order

`receive` accepts the operations of an event terminal by terminal.  What an
operation demands and what it changes is split here into its parts, of which
only the bitrate and the due time of the Format Error reports are shared.
Operations of different terminals commute, so the order of the terminals does
not matter for what an event leaves.
-/

namespace SilFormal.Can

open Fallible Commuting List

namespace Operation

/-- The bitrate that an operation sets. -/
def rate : Operation → Option Nat
  | .bitrate rate => some rate
  | _ => none

/-- The bytes that an operation reports as a Format Error. -/
def report : Operation → Option Bytes
  | .corrupt op => some op
  | _ => none

/-- The frame that an operation requests. -/
def frame : Operation → Option Bytes
  | .transmit op => some op
  | _ => none

/-- What an operation changes at its terminal. -/
def update (node : Node) : Operation → Node
  | .bitrate _ => { node with configured := true }
  | .behavior discards => { node with discardsOnLoss := discards }
  | .corrupt op => { node with formatError := node.formatError ++ formatErrorHeader op ++ op }
  | .transmit _ => node
  | .refused _ => node

/-- What an operation changes at the counter of a rule. -/
def countRule (terminal : Terminal) (op : Operation) (state : RuleState) : RuleState :=
  match op.frame with
  | none => state
  | some bytes => state.count terminal (u32 bytes 8)

end Operation

namespace Bus

variable {s : Bus × Requests}

/-- The bus in the middle of an event, with the requests of each terminal so
far. -/
abbrev Staging := Bus × (Terminal → List Request)

/-- When an operation is accepted. -/
structure Enabled (now : Int) (terminal : Terminal) (op : Operation) (b : Bus) : Prop where
  known : ∀ message, op ≠ .refused message
  rate : ∀ rate, op.rate = some rate →
    supportedBitrate rate = true ∧ (b.bitrate = none ∨ b.bitrate = some rate)
  due : op.report ≠ none →
    now < maxTime ∧ (b.formatErrorsDue = none ∨ b.formatErrorsDue = some (now + 1))
  fits : ∀ bytes, op.report = some bytes →
    (b.nodes terminal).formatError.length + (10 + bytes.length) ≤ b.bufferCapacity - frameEndOutput
  counts : ∀ bytes, op.frame = some bytes → ∀ state ∈ b.rules,
    state.Names terminal (u32 bytes 8) → state.occurrences < 2 ^ 64 - 1

/-- The requests that an operation makes. -/
def requestsOf (now : Int) (terminal : Terminal) (op : Operation) (b : Bus) : List Request :=
  op.frame.toList.map fun bytes => b.requestOf terminal bytes now

/-- The bus after an accepted operation. -/
def performed (now : Int) (terminal : Terminal) (op : Operation) (b : Bus) : Bus :=
  { b.modify terminal fun node => op.update node with
    bitrate := op.rate.or b.bitrate
    formatErrorsDue := if op.report = none then b.formatErrorsDue else some (now + 1)
    rules := b.rules.map (op.countRule terminal) }

/-- One operation of a terminal. -/
def Performs (now : Int) (step : Terminal × Operation) (s t : Staging) : Prop :=
  s.1.Enabled now step.1 step.2 ∧ t = (s.1.performed now step.1 step.2,
      fun n => s.2 n ++ if step.1 = n then s.1.requestsOf now step.1 step.2 else [])

section Performed

variable (now : Int) (terminal : Terminal) (b : Bus)

omit now in
/-- Only requests are counted. -/
theorem map_countRule_of_frame {op : Operation} (h : op.frame = none) :
    b.rules.map (op.countRule terminal) = b.rules := by
  have hid : op.countRule terminal = id := by
    funext state
    simp only [Operation.countRule, h, id]
  rw [hid, map_id]

theorem performed_bitrate (rate : Nat) :
    b.performed now terminal (.bitrate rate) = { b with bitrate := some rate }.modify terminal
        fun node => { node with configured := true } := by
  rw [performed, map_countRule_of_frame terminal b rfl]
  simp [modify, Operation.rate, Operation.report, Operation.update]

theorem performed_behavior (discards : Bool) : b.performed now terminal (.behavior discards) =
      b.modify terminal fun node => { node with discardsOnLoss := discards } := by
  rw [performed, map_countRule_of_frame terminal b rfl]
  simp [modify, Operation.rate, Operation.report, Operation.update]

theorem performed_transmit (op : Bytes) : b.performed now terminal (.transmit op) =
      { b with rules := b.rules.map (RuleState.count terminal (u32 op 8)) } := by
  simp [performed, modify, Operation.rate, Operation.report, Operation.update,
    Operation.countRule, Operation.frame]

theorem performed_corrupt (op : Bytes) :
    b.performed now terminal (.corrupt op) = b.reported terminal op now := by
  rw [performed, map_countRule_of_frame terminal b rfl]
  simp [reported, modify, Operation.rate, Operation.report, Operation.update]

end Performed

theorem handled_iff {terminal : Terminal} {now : Int} {b : Bus} {requests : Requests}
    {op : Operation} :
    Handled terminal now b requests op s ↔ b.Enabled now terminal op ∧
        s = (b.performed now terminal op,
          requests ++ (b.requestsOf now terminal op).map (Prod.mk terminal)) := by
  constructor
  · intro h
    cases h with
    | bitrate rate hrate hsame =>
      refine ⟨⟨nofun, ?_, (absurd rfl ·), nofun, nofun⟩, ?_⟩
      · rintro _ ⟨⟩
        exact ⟨hrate, hsame⟩
      · rw [performed_bitrate]
        simp [requestsOf, Operation.frame]
    | behavior discards =>
      refine ⟨⟨nofun, nofun, (absurd rfl ·), nofun, nofun⟩, ?_⟩
      rw [performed_behavior]
      simp [requestsOf, Operation.frame]
    | transmit bytes hcount =>
      refine ⟨⟨nofun, nofun, (absurd rfl ·), nofun, ?_⟩, ?_⟩
      · rintro _ ⟨⟩
        exact hcount
      · rw [performed_transmit]
        simp [requestsOf, Operation.frame]
    | corrupt bytes hnow hdue hfits =>
      refine ⟨⟨nofun, nofun, fun _ => ⟨hnow, hdue⟩, ?_, nofun⟩, ?_⟩
      · rintro _ ⟨⟩
        exact hfits
      · rw [performed_corrupt]
        simp [requestsOf, Operation.frame]
  · rintro ⟨henabled, rfl⟩
    cases op with
    | bitrate rate =>
      obtain ⟨hrate, hsame⟩ := henabled.rate rate rfl
      rw [performed_bitrate]
      simpa [requestsOf, Operation.frame] using Handled.bitrate rate hrate hsame
    | behavior discards =>
      rw [performed_behavior]
      simpa [requestsOf, Operation.frame] using Handled.behavior discards
    | transmit bytes =>
      rw [performed_transmit]
      exact Handled.transmit bytes (henabled.counts bytes rfl)
    | corrupt bytes =>
      obtain ⟨hnow, hdue⟩ := henabled.due nofun
      rw [performed_corrupt]
      simpa [requestsOf, Operation.frame] using
        Handled.corrupt bytes hnow hdue (henabled.fits bytes rfl)
    | refused message => exact absurd rfl (henabled.known message)

/-- The requests of an event by their terminals. -/
def staging (s : Bus × Requests) : Staging :=
  (s.1, stagedBy s.2)

theorem stagedBy_map (terminal : Terminal) (l : List Request) (n : Terminal) :
    stagedBy (l.map (Prod.mk terminal)) n = if terminal = n then l else [] := by
  by_cases h : terminal = n
  · simp [stagedBy, h, filter_map]
  · simp [stagedBy, h]

/-- The loop of `accept` performs its operations. -/
theorem handle_performs {terminal : Terminal} {now : Int} {s' : Bus × Requests} {op : Bytes × Bool}
    (h : handle terminal now s op = .ok s') :
    Performs now (terminal, .decode op) (staging s) (staging s') := by
  obtain ⟨henabled, rfl⟩ := handled_iff.mp (handle_eq_ok_iff.mp h)
  refine ⟨henabled, Prod.ext rfl (funext fun n => ?_)⟩
  simp only [staging, stagedBy_append, stagedBy_map]

theorem Performs.exists_handle {terminal : Terminal} {now : Int} {t : Staging} {op : Bytes × Bool}
    (h : Performs now (terminal, .decode op) (staging s) t) :
    ∃ s', handle terminal now s op = .ok s' ∧ staging s' = t := by
  obtain ⟨b, requests⟩ := s
  have hhandle : handle terminal now (b, requests) op = .ok _ :=
    handle_eq_ok_iff.mpr (handled_iff.mpr ⟨h.1, rfl⟩)
  refine ⟨_, hhandle, ?_⟩
  rw [h.2, (handle_performs hhandle).2]

/-! ## Operations of different terminals -/

section Commutes

variable {now : Int} {i j : Terminal} {x y : Operation} {b : Bus}

theorem performed_nodes_of_ne (hne : j ≠ i) : (b.performed now i x).nodes j = b.nodes j :=
  Function.update_of_ne hne _ _

theorem countRule_of_ne {state : RuleState} (hne : state.rule.sender ≠ i) :
    x.countRule i state = state := by
  simp only [Operation.countRule]
  cases x.frame with
  | none => rfl
  | some bytes => exact if_neg fun hnames => hne hnames.1

theorem countRule_rule (state : RuleState) : (x.countRule i state).rule = state.rule := by
  simp only [Operation.countRule]
  cases x.frame with
  | none => rfl
  | some bytes =>
    simp only [RuleState.count]
    split <;> rfl

theorem countRule_names (state : RuleState) (id : Nat) :
    (x.countRule i state).Names j id ↔ state.Names j id := by
  simp only [RuleState.Names, countRule_rule]

theorem requestsOf_performed (hne : i ≠ j) :
    (b.performed now i x).requestsOf now j y = b.requestsOf now j y := by
  have hnext : ∀ (id : Nat) (rules : List RuleState) (occurrence : Nat),
      RuleState.nextOccurrence j id (rules.map (x.countRule i)) occurrence =
        RuleState.nextOccurrence j id rules occurrence := by
    intro id rules occurrence
    simp only [RuleState.nextOccurrence, foldl_map, countRule_names]
    congr 1
    funext _ state
    by_cases hnames : state.Names j id
    · rw [countRule_of_ne (hnames.1.trans_ne hne.symm)]
    · simp only [if_neg hnames]
  simp only [requestsOf, requestOf]
  refine map_congr_left fun bytes _ => ?_
  rw [show (b.performed now i x).rules = b.rules.map (x.countRule i) from rfl, hnext]

theorem countRule_comm (hne : i ≠ j) (state : RuleState) :
    y.countRule j (x.countRule i state) = x.countRule i (y.countRule j state) := by
  -- At most one of the two operations counts for the rule.
  by_cases hj : state.rule.sender = j
  · have hx : ∀ other : RuleState, other.rule = state.rule → x.countRule i other = other := by
      intro other hother
      exact countRule_of_ne (by rw [hother, hj]; exact hne.symm)
    rw [hx state rfl, hx _ (countRule_rule state)]
  · have hy : ∀ other : RuleState, other.rule = state.rule → y.countRule j other = other := by
      intro other hother
      exact countRule_of_ne (by rwa [hother])
    rw [hy state rfl, hy _ (countRule_rule state)]

/-- What an operation demands does not depend on an operation of another
terminal that was accepted before it. -/
theorem Enabled.of_performed (hne : i ≠ j) (hx : b.Enabled now i x)
    (hy : (b.performed now i x).Enabled now j y) :
    b.Enabled now j y where
  known := hy.known
  rate := fun rate hrate => by
    obtain ⟨hsupported, hsame⟩ := hy.rate rate hrate
    refine ⟨hsupported, ?_⟩
    simp only [performed] at hsame
    cases hxrate : x.rate with
    | none => simpa [hxrate] using hsame
    | some other =>
      obtain ⟨_, hbefore⟩ := hx.rate other hxrate
      rw [hxrate] at hsame
      simp only [Option.some_or, Option.some.injEq, reduceCtorEq, false_or] at hsame
      exact hsame ▸ hbefore
  due := fun hreport => by
    obtain ⟨hnow, hdue⟩ := hy.due hreport
    refine ⟨hnow, ?_⟩
    by_cases hxreport : x.report = none
    · simpa [performed, hxreport] using hdue
    · exact (hx.due hxreport).2
  fits := fun bytes hbytes => by
    have hfits := hy.fits bytes hbytes
    rwa [performed_nodes_of_ne hne.symm] at hfits
  counts := fun bytes hbytes state hstate hnames => by
    have hcount := hy.counts bytes hbytes _ (mem_map_of_mem hstate)
      ((countRule_names state _).mpr hnames)
    rwa [countRule_of_ne (hnames.1.trans_ne hne.symm)] at hcount

/-- An operation can still be accepted after one of another terminal that could
be accepted after it. -/
theorem Enabled.performed_of (hne : i ≠ j) (hx : b.Enabled now i x)
    (hy : (b.performed now i x).Enabled now j y) :
    (b.performed now j y).Enabled now i x where
  known := hx.known
  rate := fun rate hrate => by
    obtain ⟨hsupported, hsame⟩ := hx.rate rate hrate
    refine ⟨hsupported, ?_⟩
    simp only [performed]
    cases hyrate : y.rate with
    | none => simpa using hsame
    | some other =>
      have hother := (hy.rate other hyrate).2
      simp only [performed, hrate, Option.some_or, reduceCtorEq, false_or] at hother
      exact .inr hother.symm
  due := fun hreport => by
    obtain ⟨hnow, hdue⟩ := hx.due hreport
    refine ⟨hnow, ?_⟩
    by_cases hyreport : y.report = none
    · simpa [performed, hyreport] using hdue
    · exact .inr (if_neg hyreport)
  fits := fun bytes hbytes => by
    rw [performed_nodes_of_ne hne]
    exact hx.fits bytes hbytes
  counts := fun bytes hbytes state hstate hnames => by
    obtain ⟨before, hbefore, rfl⟩ := mem_map.mp hstate
    rw [countRule_names] at hnames
    rw [countRule_of_ne (hnames.1.trans_ne hne)]
    exact hx.counts bytes hbytes before hbefore hnames

theorem performed_comm (hne : i ≠ j) (hy : (b.performed now i x).Enabled now j y) :
    (b.performed now i x).performed now j y = (b.performed now j y).performed now i x := by
  have hrate : y.rate.or (x.rate.or b.bitrate) = x.rate.or (y.rate.or b.bitrate) := by
    cases hxrate : x.rate with
    | none => rfl
    | some rate =>
      cases hyrate : y.rate with
      | none => rfl
      | some other =>
        have hother := (hy.rate other hyrate).2
        simp only [performed, hxrate, Option.some_or, reduceCtorEq, false_or] at hother
        exact hother.symm
  have hdue : (if y.report = none then if x.report = none then b.formatErrorsDue
        else some (now + 1) else some (now + 1)) =
      if x.report = none then if y.report = none then b.formatErrorsDue
        else some (now + 1) else some (now + 1) := by
    by_cases hx : x.report = none
    · simp [hx]
    · simp [hx]
  have hrules : (b.rules.map (x.countRule i)).map (y.countRule j) =
      (b.rules.map (y.countRule j)).map (x.countRule i) := by
    rw [map_map, map_map]
    exact map_congr_left fun state _ => countRule_comm hne state
  have hnodes : ((b.performed now i x).performed now j y).nodes =
      ((b.performed now j y).performed now i x).nodes := by
    simp only [performed, modify, Function.update_of_ne hne, Function.update_of_ne hne.symm]
    exact Function.update_comm hne _ _ _
  simp only [performed, modify] at hnodes ⊢
  rw [hrate, hdue, hrules, hnodes]

theorem performs_commutes (hne : i ≠ j) : Commutes (Performs now) (i, x) (j, y) := by
  rintro ⟨b, staged⟩ _ _ ⟨hx, rfl⟩ ⟨hy, rfl⟩
  refine ⟨_, ⟨hx.of_performed hne hy, rfl⟩, hx.performed_of hne hy, ?_⟩
  refine Prod.ext (performed_comm hne hy) (funext fun n => ?_)
  simp only [requestsOf_performed hne, requestsOf_performed hne.symm]
  by_cases hn : i = n
  · subst hn
    simp [hne.symm]
  · simp [hn]

end Commutes

/-! ## All operations of an event -/

/-- The operations of a terminal. -/
def operations (inputs : Terminal → Bytes) (terminal : Terminal) : List (Terminal × Operation) :=
  (splitOperations (inputs terminal).length (inputs terminal)).map fun op => (terminal, .decode op)

/-- What `receive` requires of the buffer of a terminal. -/
def Admits (inputs : Terminal → Bytes) (b : Bus) (terminal : Terminal) : Prop :=
  (b.isActive terminal = true ∨ inputs terminal = []) ∧ (inputs terminal).length ≤ b.bufferCapacity

/-- When the requests of an event enter the queues, and what that leaves. -/
structure Enqueues (t : Staging) (b' : Bus) : Prop where
  ready : (∃ n, t.2 n ≠ []) → t.1.bitrate ≠ none ∧ ∀ n ∈ t.1.active, (t.1.nodes n).configured = true
  room : ∀ n, t.2 n = [] ∨ (t.1.nodes n).queue.length + (t.2 n).length ≤ t.1.queueCapacity
  bus_eq : b' = t.1.enqueued t.2

section Commit

variable {now : Int} {inputs : Terminal → Bytes} {terminal : Terminal} {s : Bus × Requests}
  {t : Staging} {l : List (Terminal × Operation)}

theorem accept_performs {s' : Bus × Requests}
    (h : accept terminal (inputs terminal) now s = .ok s') :
    Along (Performs now) (operations inputs terminal) (staging s) (staging s') := by
  obtain ⟨t, hperforms, rfl⟩ := Along.map
    (fun op _ s s' t hst hhandle => ⟨staging s', hst ▸ handle_performs hhandle, rfl⟩)
    (along_iff_foldlM.mpr h) rfl
  exact hperforms

theorem exists_accept (h : Along (Performs now) (operations inputs terminal) (staging s) t) :
    ∃ s', accept terminal (inputs terminal) now s = .ok s' ∧ staging s' = t := by
  simp only [operations, accept] at h ⊢
  generalize splitOperations (inputs terminal).length (inputs terminal) = ops at h
  induction ops generalizing s with
  | nil => exact ⟨s, rfl, (along_nil_iff.mp h).symm⟩
  | cons op rest ih =>
    obtain ⟨t₁, hfirst, hrest⟩ := along_cons_iff.mp h
    obtain ⟨s₁, hhandle, rfl⟩ := hfirst.exists_handle
    obtain ⟨s', hs', rfl⟩ := ih hrest
    exact ⟨s', by rw [foldlM_cons, bind_eq_ok]; exact ⟨s₁, hhandle, hs'⟩, rfl⟩

/-- Operations change neither which terminals are active nor the capacity of
their buffers. -/
theorem performs_frame {s : Staging} (h : Along (Performs now) l s t) :
    t.1.activeNodes = s.1.activeNodes ∧ t.1.bufferCapacity = s.1.bufferCapacity := by
  induction h with
  | nil s => exact ⟨rfl, rfl⟩
  | cons hfirst _ ih =>
    rw [ih.1, ih.2, hfirst.2]
    exact ⟨rfl, rfl⟩

theorem admits_iff_of_performs {s : Staging} (h : Along (Performs now) l s t) :
    Admits inputs t.1 terminal ↔ Admits inputs s.1 terminal := by
  obtain ⟨hactive, hcapacity⟩ := performs_frame h
  rw [Admits, Admits, isActive_congr hactive, hcapacity]

/-- The first loop of `receive` performs the operations of the terminals in
their order. -/
theorem acceptFrom_performs {l : List Terminal} {s' : Bus × Requests}
    (h : l.foldlM (acceptFrom inputs now) s = .ok s') :
    (∀ n ∈ l, Admits inputs s.1 n) ∧
      Along (Performs now) (l.flatMap (operations inputs)) (staging s) (staging s') := by
  induction l generalizing s with
  | nil =>
    cases h
    exact ⟨by simp, .nil _⟩
  | cons n rest ih =>
    rw [foldlM_cons, bind_eq_ok] at h
    obtain ⟨s₁, hfirst, hrest⟩ := h
    simp only [acceptFrom, require_bind_eq_ok] at hfirst
    obtain ⟨hactive, hlength, haccept⟩ := hfirst
    have hblock := accept_performs haccept
    obtain ⟨hadmits, halong⟩ := ih hrest
    refine ⟨?_, ?_⟩
    · intro m hm
      rcases mem_cons.mp hm with rfl | hm
      · exact ⟨hactive, hlength⟩
      · exact (admits_iff_of_performs hblock).mp (hadmits m hm)
    · rw [flatMap_cons, along_append_iff]
      exact ⟨_, hblock, halong⟩

theorem exists_acceptFrom {l : List Terminal} (hadmits : ∀ n ∈ l, Admits inputs s.1 n)
    (h : Along (Performs now) (l.flatMap (operations inputs)) (staging s) t) :
    ∃ s', l.foldlM (acceptFrom inputs now) s = .ok s' ∧ staging s' = t := by
  induction l generalizing s with
  | nil => exact ⟨s, rfl, (along_nil_iff.mp h).symm⟩
  | cons n rest ih =>
    rw [flatMap_cons, along_append_iff] at h
    obtain ⟨t₁, hblock, hrest⟩ := h
    obtain ⟨s₁, haccept, rfl⟩ := exists_accept hblock
    obtain ⟨s', hs', rfl⟩ := ih (fun m hm => (admits_iff_of_performs hblock).mpr
      (hadmits m (mem_cons_of_mem _ hm))) hrest
    obtain ⟨hactive, hlength⟩ := hadmits n (by simp)
    refine ⟨s', ?_, rfl⟩
    rw [foldlM_cons, bind_eq_ok]
    refine ⟨s₁, ?_, hs'⟩
    simp only [acceptFrom, require_bind_eq_ok]
    exact ⟨hactive, hlength, haccept⟩

/-- The second loop of `receive` in terms of the requests of each terminal. -/
theorem enqueue_iff_enqueues {b' : Bus} :
    s.2.foldlM enqueue s.1 = .ok b' ↔ Enqueues (staging s) b' := by
  have hany : s.2 ≠ [] ↔ ∃ n, stagedBy s.2 n ≠ [] := by
    constructor
    · intro hne
      obtain ⟨staged, hstaged⟩ := exists_mem_of_ne_nil _ hne
      exact ⟨staged.1, ne_nil_of_mem (mem_stagedBy.mpr hstaged)⟩
    · rintro ⟨n, hn⟩ hnil
      rw [hnil] at hn
      exact hn rfl
  rw [foldlM_enqueue_eq_ok_iff, hany]
  exact ⟨fun ⟨hready, hroom, hbus⟩ => ⟨hready, hroom, hbus⟩,
    fun ⟨hready, hroom, hbus⟩ => ⟨hready, hroom, hbus⟩⟩

theorem commit_eq_ok_iff {order : List Terminal}
    (horder : order.Perm (List.finRange terminalCapacity)) {b b' : Bus} :
    b.commit inputs now = .ok b' ↔ (∀ n, Admits inputs b n) ∧ ∃ t,
        Along (Performs now) (order.flatMap (operations inputs)) (b, fun _ => []) t ∧
          Enqueues t b' := by
  have hcommutes : ∀ m n, m ≠ n → ∀ x ∈ operations inputs m, ∀ y ∈ operations inputs n,
      Commutes (Performs now) x y := by
    intro m n hne x hx y hy
    obtain ⟨_, _, rfl⟩ := mem_map.mp hx
    obtain ⟨_, _, rfl⟩ := mem_map.mp hy
    exact performs_commutes hne
  rw [commit, bind_eq_ok]
  constructor
  · rintro ⟨s, haccept, henqueue⟩
    obtain ⟨hadmits, halong⟩ := acceptFrom_performs haccept
    exact ⟨fun n => hadmits n (mem_finRange n), staging s,
      halong.perm hcommutes horder.symm, enqueue_iff_enqueues.mp henqueue⟩
  · rintro ⟨hadmits, t, halong, henqueues⟩
    obtain ⟨s, haccept, rfl⟩ :=
      exists_acceptFrom (s := (b, [])) (fun n _ => hadmits n) (halong.perm hcommutes horder)
    exact ⟨s, haccept, enqueue_iff_enqueues.mpr henqueues⟩

end Commit

end Bus
end SilFormal.Can
