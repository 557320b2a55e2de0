import SilFormal.Can.Parameters

/-!
# The order of parameter assignments

Assignments of different references write different parameters, so what a set
of them leaves does not depend on their order.  Whether each call on the way is
accepted does: once all fields of the declared fault rules are set, the rules
are checked against the number of active nodes and the retry limit as they are
then, and a later call may be the one that makes room for them.
-/

namespace SilFormal.Can

open Fallible List
open Fmi (Reference)

/-! ## References -/

/-- The reference of a parameter. -/
def Slot.reference : Slot → Nat
  | .activeNodes => activeNodesReference
  | .queueCapacity => queueCapacityReference
  | .bufferCapacity => bufferCapacityReference
  | .retryLimit => retryLimitReference
  | .faultRuleCount => faultRuleCountReference
  | .field rule index => faultRuleBase + (faultRuleStride * rule.val + index.val)

theorem slotOf_reference {vr : Reference} {slot : Slot} (h : slotOf vr = some slot) :
    slot.reference = vr := by
  rw [slotOf] at h
  split at h
  · cases h
    exact Eq.symm ‹_›
  split at h
  · cases h
    exact Eq.symm ‹_›
  split at h
  · cases h
    exact Eq.symm ‹_›
  split at h
  · cases h
    exact Eq.symm ‹_›
  split at h
  · cases h
    exact Eq.symm ‹_›
  obtain ⟨location, hlocation, rfl⟩ := Option.map_eq_some_iff.mp h
  rw [faultParameter] at hlocation
  split at hlocation
  · rename_i hrange
    cases hlocation
    simp only [Slot.reference]
    rw [Nat.div_add_mod, Nat.add_sub_cancel' hrange.1]
  · cases hlocation

namespace Parameters

variable {p q : Parameters} {writes : List Write} {l : List (Reference × Option ℚ)}

/-! ## Writes -/

/-- A parameter with the number that is written to it. -/
abbrev Write := Slot × Nat

/-- Writes one after another. -/
def writeAll (p : Parameters) (writes : List Write) : Parameters :=
  writes.foldl (fun p write => p.store write.1 write.2) p

/-- The number of a parameter. -/
def value (p : Parameters) : Slot → Nat
  | .activeNodes => p.activeNodes
  | .queueCapacity => p.queueCapacity
  | .bufferCapacity => p.bufferCapacity
  | .retryLimit => p.retryLimit
  | .faultRuleCount => p.faultRuleCount
  | .field rule index => p.faultRules rule index

/-- Whether a parameter of the fault rules was written. -/
def given (p : Parameters) : Slot → Bool
  | .faultRuleCount => p.faultRuleCountSet
  | .field rule index => p.faultRuleFieldsSet rule index
  | _ => true

/-- A write is seen at its own slot only. -/
theorem read_store (p : Parameters) (slot slot' : Slot) (n : Nat) :
    (p.store slot n).value slot' = (if slot' = slot then n else p.value slot') ∧
      (p.store slot n).given slot' = (if slot' = slot then true else p.given slot') := by
  cases slot with
  | field rule index =>
    cases slot' with
    | field rule' index' =>
      simp only [store, value, given]
      by_cases hrule : rule' = rule
      · subst hrule
        simp [Function.update_apply]
      · simp [hrule]
    | _ => simp [store, value, given]
  | _ => cases slot' <;> simp [store, value, given]

theorem eq_of_value (hvalue : ∀ slot, p.value slot = q.value slot)
    (hgiven : ∀ slot, p.given slot = q.given slot) : p = q := by
  obtain ⟨_, _, _, _, _, _, rules, fields⟩ := p
  obtain ⟨_, _, _, _, _, _, rules', fields'⟩ := q
  have hrules : rules = rules' := funext fun rule => funext fun index => hvalue (.field rule index)
  have hfields : fields = fields' :=
    funext fun rule => funext fun index => hgiven (.field rule index)
  cases hvalue .activeNodes
  cases hvalue .queueCapacity
  cases hvalue .bufferCapacity
  cases hvalue .retryLimit
  cases hvalue .faultRuleCount
  cases hgiven .faultRuleCount
  rw [hrules, hfields]

theorem store_comm {slot slot' : Slot} (h : slot ≠ slot') (p : Parameters) (n n' : Nat) :
    (p.store slot n).store slot' n' = (p.store slot' n').store slot n := by
  refine eq_of_value (fun s => ?_) fun s => ?_
  · simp only [read_store]
    by_cases hs : s = slot
    · simp [hs, h]
    · simp [hs]
  · simp only [read_store]
    by_cases hs : s = slot
    · simp [hs]
    · simp [hs]

theorem writeAll_perm {writes' : List Write} (hperm : writes.Perm writes')
    (hnodup : (writes.map Prod.fst).Nodup) (p : Parameters) :
    p.writeAll writes = p.writeAll writes' := by
  refine hperm.foldl_eq' (fun x hx y hy q => ?_) p
  by_cases hslot : x.1 = y.1
  · rw [inj_on_of_nodup_map hnodup hx hy hslot]
  · exact store_comm hslot q x.2 y.2

theorem value_writeAll_of_notMem {slot : Slot} (h : slot ∉ writes.map Prod.fst) (p : Parameters) :
    (p.writeAll writes).value slot = p.value slot := by
  induction writes generalizing p with
  | nil => rfl
  | cons write writes ih =>
    rw [map_cons, mem_cons, not_or] at h
    refine (ih h.2 _).trans ?_
    rw [(p.read_store _ _ _).1, if_neg h.1]

theorem given_writeAll (writes : List Write) (slot : Slot) (p : Parameters) :
    (p.writeAll writes).given slot = true ↔ p.given slot = true ∨ slot ∈ writes.map Prod.fst := by
  induction writes generalizing p with
  | nil => simp [writeAll]
  | cons write writes ih =>
    refine (ih _).trans ?_
    rw [(p.read_store _ _ _).2, map_cons]
    by_cases h : slot = write.1
    · simp [h]
    · simp [h]

/-! ## The checks -/

/-- The limits of the scalar parameters. -/
structure Limits (p : Parameters) : Prop where
  activeNodes : 1 ≤ p.activeNodes ∧ p.activeNodes ≤ terminalCapacity
  queueCapacity : 1 ≤ p.queueCapacity ∧ p.queueCapacity ≤ maxQueueCapacity
  retryLimit : p.retryLimit ≤ maxFaultRetries
  faultRuleCount : p.faultRuleCount ≤ maxFaultRules
  bufferCapacity : minOperationBuffer ≤ p.bufferCapacity ∧ p.bufferCapacity ≤ maxOperationBuffer

/-- The declared rules fit the active nodes and the retry limit. -/
def RulesFit (p : Parameters) : Prop :=
  ∀ rule : Fin faultRuleCapacity, rule.val < p.faultRuleCount →
    Succeeds (Bus.configureRule p.activeNodes p.retryLimit (p.ruleInput rule))

theorem limits_iff : Bus.validateConfigurationLimits p.activeNodes p.queueCapacity p.retryLimit
      p.faultRuleCount p.bufferCapacity = .ok ⟨⟩ ↔ p.Limits := by
  simp only [Bus.validateConfigurationLimits, require_bind_eq_ok, require_eq_ok]
  constructor
  · rintro ⟨hactive, hqueue, hretry, hcount, hbuffer⟩
    exact ⟨hactive, hqueue, hretry, hcount, hbuffer⟩
  · rintro ⟨hactive, hqueue, hretry, hcount, hbuffer⟩
    exact ⟨hactive, hqueue, hretry, hcount, hbuffer⟩

theorem mem_take_faultRuleInputs {count : Nat} {input : FaultRuleInput} :
    input ∈ p.faultRuleInputs.take count ↔
      ∃ rule : Fin faultRuleCapacity, rule.val < count ∧ p.ruleInput rule = input := by
  rw [mem_take_iff_getElem]
  simp only [faultRuleInputs, length_map, length_finRange, getElem_map, getElem_finRange]
  constructor
  · rintro ⟨k, hk, rfl⟩
    exact ⟨⟨k, by omega⟩, by simp; omega, rfl⟩
  · rintro ⟨rule, hrule, rfl⟩
    exact ⟨rule.val, by omega, rfl⟩

theorem configure_succeeds_iff (hlimits : p.Limits) :
    Succeeds (Bus.configure p.activeNodes p.queueCapacity p.retryLimit p.faultRuleCount
      (p.faultRuleInputs.take p.faultRuleCount) p.bufferCapacity {}) ↔ p.RulesFit := by
  have hrules : Succeeds ((p.faultRuleInputs.take p.faultRuleCount).mapM
      (Bus.configureRule p.activeNodes p.retryLimit)) ↔ p.RulesFit := by
    rw [succeeds_mapM_iff]
    constructor
    · exact fun h rule hrule => h _ (mem_take_faultRuleInputs.mpr ⟨rule, hrule, rfl⟩)
    · intro h input hinput
      obtain ⟨rule, hrule, rfl⟩ := mem_take_faultRuleInputs.mp hinput
      exact h rule hrule
  have htake : (p.faultRuleInputs.take p.faultRuleCount).take p.faultRuleCount =
      p.faultRuleInputs.take p.faultRuleCount := by
    rw [take_take, min_self]
  have hlength : (p.faultRuleInputs.take p.faultRuleCount).length = p.faultRuleCount := by
    have := hlimits.faultRuleCount
    simp only [maxFaultRules] at this
    simp [faultRuleInputs, this]
  rw [← hrules]
  constructor
  · rintro ⟨b, hb⟩
    rw [Bus.configure, bind_eq_ok] at hb
    obtain ⟨_, _, hb⟩ := hb
    simp only [require_bind_eq_ok] at hb
    obtain ⟨_, _, _, _, hb⟩ := hb
    rw [htake, bind_eq_ok] at hb
    obtain ⟨rules, hmap, _⟩ := hb
    exact ⟨rules, hmap⟩
  · rintro ⟨rules, hmap⟩
    refine ⟨{ ({} : Bus) with
      activeNodes := p.activeNodes
      queueCapacity := p.queueCapacity
      bufferCapacity := p.bufferCapacity
      retryLimit := p.retryLimit
      rules := rules.map fun rule => ⟨rule, 0, false⟩ }, ?_⟩
    rw [Bus.configure, bind_eq_ok]
    refine ⟨⟨⟩, limits_iff.mpr hlimits, ?_⟩
    refine require_bind_eq_ok.mpr ⟨⟨?_, ?_⟩, require_bind_eq_ok.mpr ⟨⟨rfl, rfl⟩, ?_⟩⟩
    · rw [hlength]
      exact hlimits.faultRuleCount
    · rw [hlength]
    refine require_bind_eq_ok.mpr ⟨fun _ => rfl, require_bind_eq_ok.mpr ⟨rfl, ?_⟩⟩
    rw [htake, bind_eq_ok]
    refine ⟨rules, hmap, require_bind_eq_ok.mpr ⟨?_, rfl⟩⟩
    simp

/-- Parameters that `fmi3SetFloat64` accepts. -/
def Valid (p : Parameters) : Prop :=
  p.validate = .ok ⟨⟩

theorem valid_iff : p.Valid ↔ p.Limits ∧ (p.ActiveRuleFieldsAreSet → p.RulesFit) := by
  rw [Valid, validate, bind_eq_ok]
  constructor
  · rintro ⟨⟨⟩, hlimits, hrules⟩
    have hlimits := limits_iff.mp hlimits
    refine ⟨hlimits, fun hset => (configure_succeeds_iff hlimits).mp ?_⟩
    rw [if_pos hset, bind_eq_ok] at hrules
    obtain ⟨b, hb, _⟩ := hrules
    exact ⟨b, hb⟩
  · rintro ⟨hlimits, hrules⟩
    refine ⟨⟨⟩, limits_iff.mpr hlimits, ?_⟩
    by_cases hset : p.ActiveRuleFieldsAreSet
    · obtain ⟨b, hb⟩ := (configure_succeeds_iff hlimits).mpr (hrules hset)
      rw [if_pos hset, hb]
      rfl
    · rw [if_neg hset]

/-! ## The way to the last write -/

/-- The parameters after writes to new ones. -/
def after (writes : List Write) : Parameters :=
  writeAll {} writes

/-- Every call of a sequence of writes is accepted. -/
def Accepted (writes : List Write) : Prop :=
  ∀ ws zs, writes = ws ++ zs → ws ≠ [] → (after ws).Valid

/-- A write of a parameter that bounds the fault rules. -/
def Bounds (write : Write) : Prop :=
  write.1 = .activeNodes ∨ write.1 = .retryLimit

instance : DecidablePred Bounds := fun _ => inferInstanceAs (Decidable (_ ∨ _))

section Sequence

variable {ws zs : List Write} (hnodup : ((ws ++ zs).map Prod.fst).Nodup)

include hnodup

/-- What was written is not written again. -/
theorem value_after_of_mem (slot : Slot) (h : slot ∈ ws.map Prod.fst) :
    (after (ws ++ zs)).value slot = (after ws).value slot := by
  rw [map_append, nodup_append'] at hnodup
  have hnot : slot ∉ zs.map Prod.fst := fun hslot => hnodup.2.2 h hslot
  rw [after, writeAll, foldl_append]
  exact value_writeAll_of_notMem hnot _

/-- On the way a number is the initial one or the last one. -/
theorem value_after_cases (slot : Slot) : (after ws).value slot = ({} : Parameters).value slot ∨
      (after ws).value slot = (after (ws ++ zs)).value slot := by
  by_cases h : slot ∈ ws.map Prod.fst
  · exact .inr (value_after_of_mem hnodup slot h).symm
  · exact .inl (value_writeAll_of_notMem h _)

/-- Limits hold on the way if they hold at the end. -/
theorem limits_after (h : (after (ws ++ zs)).Limits) : (after ws).Limits := by
  have hcases := value_after_cases hnodup
  refine ⟨?_, ?_, ?_, ?_, ?_⟩
  · rcases hcases .activeNodes with heq | heq <;> simp only [value] at heq <;> rw [heq]
    · decide
    · exact h.activeNodes
  · rcases hcases .queueCapacity with heq | heq <;> simp only [value] at heq <;> rw [heq]
    · decide
    · exact h.queueCapacity
  · rcases hcases .retryLimit with heq | heq <;> simp only [value] at heq <;> rw [heq]
    · decide
    · exact h.retryLimit
  · rcases hcases .faultRuleCount with heq | heq <;> simp only [value] at heq <;> rw [heq]
    · decide
    · exact h.faultRuleCount
  · rcases hcases .bufferCapacity with heq | heq <;> simp only [value] at heq <;> rw [heq]
    · decide
    · exact h.bufferCapacity

/-- The declared rules are complete from the write on that completes them, and
do not change any more. -/
theorem declared_after (h : (after ws).ActiveRuleFieldsAreSet) :
    (after (ws ++ zs)).ActiveRuleFieldsAreSet ∧
      (after (ws ++ zs)).faultRuleCount = (after ws).faultRuleCount ∧
      ∀ rule : Fin faultRuleCapacity, rule.val < (after ws).faultRuleCount →
        (after (ws ++ zs)).ruleInput rule = (after ws).ruleInput rule := by
  obtain ⟨hset, hne, hfields⟩ := h
  have hwritten : ∀ slot, ({} : Parameters).given slot = false →
      (after ws).given slot = true → slot ∈ ws.map Prod.fst := fun slot hnew hgiven =>
    ((given_writeAll ws slot {}).mp hgiven).resolve_left (by simp [hnew])
  have hkept : ∀ slot, (after ws).given slot = true → (after (ws ++ zs)).given slot = true :=
    fun slot hgiven => by
      rw [after, given_writeAll, map_append, mem_append]
      exact ((given_writeAll ws slot {}).mp hgiven).imp_right .inl
  have hcount : (after (ws ++ zs)).faultRuleCount = (after ws).faultRuleCount :=
    value_after_of_mem hnodup .faultRuleCount (hwritten .faultRuleCount rfl hset)
  have hrule : ∀ rule : Fin faultRuleCapacity, rule.val < (after ws).faultRuleCount →
      ∀ index, (after (ws ++ zs)).faultRules rule index = (after ws).faultRules rule index :=
    fun rule hlt index => value_after_of_mem hnodup (.field rule index)
      (hwritten (.field rule index) rfl (hfields rule hlt index))
  refine ⟨⟨hkept .faultRuleCount hset, by rw [hcount]; exact hne, fun rule hlt index => ?_⟩,
    hcount, fun rule hlt => ?_⟩
  · rw [hcount] at hlt
    exact hkept (.field rule index) (hfields rule hlt index)
  · simp only [ruleInput, hrule rule hlt]

/-- Rules that fit later fit already if nothing that bounds them is written in
between. -/
theorem rulesFit_of_later (h : (after ws).ActiveRuleFieldsAreSet)
    (hfree : ∀ write ∈ zs, ¬ Bounds write) (hfit : (after (ws ++ zs)).RulesFit) :
    (after ws).RulesFit := by
  obtain ⟨_, hcount, hinput⟩ := declared_after hnodup h
  have hsame : ∀ slot, slot = .activeNodes ∨ slot = .retryLimit →
      (after (ws ++ zs)).value slot = (after ws).value slot := fun slot hslot => by
    rw [after, writeAll, foldl_append]
    refine value_writeAll_of_notMem (fun hmem => ?_) _
    obtain ⟨write, hwrite, rfl⟩ := mem_map.mp hmem
    exact hfree write hwrite hslot
  intro rule hlt
  have hrule := hfit rule (by rw [hcount]; exact hlt)
  rw [hinput rule hlt] at hrule
  have hnodes : (after (ws ++ zs)).activeNodes = (after ws).activeNodes :=
    hsame .activeNodes (.inl rfl)
  have hlimit : (after (ws ++ zs)).retryLimit = (after ws).retryLimit :=
    hsame .retryLimit (.inr rfl)
  rwa [hnodes, hlimit] at hrule

end Sequence

/-- If one order of writes is accepted, another one is accepted exactly if the
rules fit whenever a bound of them is written and they are complete already. -/
theorem accepted_perm_iff {writes' : List Write} (hperm : writes.Perm writes')
    (hnodup : (writes.map Prod.fst).Nodup) (haccepted : Accepted writes) :
    Accepted writes' ↔ ∀ ws write zs, writes' = ws ++ write :: zs → Bounds write →
        (after ws).ActiveRuleFieldsAreSet → (after ws).RulesFit := by
  have hnodup' : (writes'.map Prod.fst).Nodup := (hperm.map Prod.fst).nodup_iff.mp hnodup
  constructor
  · intro h ws write zs hsplit _ hset
    have hne : ws ≠ [] := by
      rintro rfl
      cases hset.1
    exact (valid_iff.mp (h ws (write :: zs) hsplit hne)).2 hset
  · rintro h ws zs rfl hne
    have hlast : (after (ws ++ zs)).Valid := by
      have hfull : writes ≠ [] := by
        rintro rfl
        simp [hne] at hperm
      have hvalid := haccepted writes [] (by simp) hfull
      rwa [after, writeAll_perm hperm hnodup] at hvalid
    obtain ⟨hlimits, hfits⟩ := valid_iff.mp hlast
    refine valid_iff.mpr ⟨limits_after hnodup' hlimits, fun hset => ?_⟩
    -- Look for the next write of a bound: there, or at the end, the rules fit.
    cases hnext : zs.find? fun write => decide (Bounds write) with
    | none =>
      have hnone : ∀ write ∈ zs, ¬ Bounds write := by simpa using hnext
      exact rulesFit_of_later hnodup' hset hnone (hfits (declared_after hnodup' hset).1)
    | some write =>
      obtain ⟨hbounds, us, vs, rfl, hus⟩ := find?_eq_some_iff_append.mp hnext
      have hfree : ∀ write ∈ us, ¬ Bounds write := by simpa using hus
      have hfirst : ((ws ++ us).map Prod.fst).Nodup := by
        rw [← append_assoc, map_append] at hnodup'
        exact hnodup'.of_append_left
      exact rulesFit_of_later hfirst hset hfree (h (ws ++ us) write vs (by simp)
        (of_decide_eq_true hbounds) (declared_after hfirst hset).1)

/-! ## Assignments -/

/-- The write of an assignment, where it has one. -/
def writeOf (assignment : Reference × Option ℚ) : Write :=
  let slot := (slotOf assignment.1).getD .activeNodes
  (slot, (slot.number assignment.2).toOption.getD 0)

/-- An assignment of a known reference and a value that can be converted. -/
def Convertible (assignment : Reference × Option ℚ) : Prop :=
  slotOf assignment.1 = some (writeOf assignment).1 ∧
    (writeOf assignment).1.number assignment.2 = .ok (writeOf assignment).2

theorem assign_eq_ok_iff {assignment : Reference × Option ℚ} :
    p.assign assignment = .ok q ↔ Convertible assignment ∧
        q = p.store (writeOf assignment).1 (writeOf assignment).2 := by
  rw [assign, Convertible, writeOf]
  cases hslot : slotOf assignment.1 with
  | none => simp
  | some slot =>
    simp only [bind_eq_ok, Option.getD_some]
    cases hnumber : slot.number assignment.2 with
    | error message => simp
    | ok n => simp [Except.toOption, eq_comm]

theorem foldlM_assign_eq_ok_iff : l.foldlM assign p = .ok q ↔
      (∀ a ∈ l, Convertible a) ∧ q = p.writeAll (l.map writeOf) := by
  induction l generalizing p with
  | nil => simp [writeAll, pure, Except.pure, eq_comm]
  | cons a l ih =>
    simp only [foldlM_cons, bind_eq_ok, assign_eq_ok_iff, ih, forall_mem_cons]
    constructor
    · rintro ⟨_, ⟨ha, rfl⟩, hl, rfl⟩
      exact ⟨⟨ha, hl⟩, rfl⟩
    · rintro ⟨⟨ha, hl⟩, rfl⟩
      exact ⟨_, ⟨ha, rfl⟩, hl, rfl⟩

theorem set_eq_ok_iff : p.set l = .ok q ↔ l.foldlM assign p = .ok q ∧ q.Valid := by
  rw [set]
  simp only [bind_eq_ok, Except.ok.injEq]
  constructor
  · rintro ⟨next, hassign, ⟨⟩, hvalid, rfl⟩
    exact ⟨hassign, hvalid⟩
  · rintro ⟨hassign, hvalid⟩
    exact ⟨q, hassign, ⟨⟩, hvalid, rfl⟩

/-- One call for each assignment. -/
def setEach (p : Parameters) (l : List (Reference × Option ℚ)) : Except String Parameters :=
  l.foldlM (fun p a => p.set [a]) p

/-- The calls succeed if every assignment is convertible and what each of them
leaves is valid. -/
theorem setEach_eq_ok_iff :
    p.setEach l = .ok q ↔ (∀ a ∈ l, Convertible a) ∧ q = p.writeAll (l.map writeOf) ∧
        ∀ ws zs, l.map writeOf = ws ++ zs → ws ≠ [] → (p.writeAll ws).Valid := by
  induction l generalizing p with
  | nil =>
    simp only [setEach, not_mem_nil, false_imp_iff, implies_true, true_and]
    constructor
    · rintro ⟨⟩
      refine ⟨rfl, fun ws zs hsplit hne => absurd ?_ hne⟩
      exact (append_eq_nil_iff.mp hsplit.symm).1
    · rintro ⟨rfl, _⟩
      rfl
  | cons a l ih =>
    rw [setEach, foldlM_cons, bind_eq_ok]
    simp only [set_eq_ok_iff, foldlM_assign_eq_ok_iff, forall_mem_singleton]
    constructor
    · rintro ⟨p₁, ⟨⟨ha, rfl⟩, hfirst⟩, hrest⟩
      obtain ⟨hl, rfl, hvalid⟩ := ih.mp hrest
      refine ⟨forall_mem_cons.mpr ⟨ha, hl⟩, rfl, fun ws zs hsplit hne => ?_⟩
      cases ws with
      | nil => exact absurd rfl hne
      | cons w ws =>
        rw [map_cons, cons_append, cons.injEq] at hsplit
        obtain ⟨rfl, hsplit⟩ := hsplit
        cases ws with
        | nil => exact hfirst
        | cons w' ws => exact hvalid (w' :: ws) zs hsplit (by simp)
    · rintro ⟨hall, rfl, hvalid⟩
      obtain ⟨ha, hl⟩ := forall_mem_cons.mp hall
      refine ⟨p.writeAll [writeOf a], ⟨⟨ha, rfl⟩, hvalid [writeOf a] (l.map writeOf) rfl (by simp)⟩,
        ih.mpr ⟨hl, rfl, fun ws zs hsplit hne => ?_⟩⟩
      exact hvalid (writeOf a :: ws) zs (by rw [map_cons, hsplit]; rfl) (by simp)

theorem Convertible.reference_eq {a : Reference × Option ℚ} (h : Convertible a) :
    (writeOf a).1.reference = a.1 :=
  slotOf_reference h.1

/-- Assignments of different references write different parameters. -/
theorem nodup_writes (hconvertible : ∀ a ∈ l, Convertible a) (hnodup : (l.map Prod.fst).Nodup) :
    ((l.map writeOf).map Prod.fst).Nodup := by
  refine List.Nodup.of_map Slot.reference ?_
  have hreferences : ((l.map writeOf).map Prod.fst).map Slot.reference = l.map Prod.fst := by
    rw [map_map, map_map]
    exact map_congr_left fun a ha => (hconvertible a ha).reference_eq
  rw [hreferences]
  exact hnodup

theorem Convertible.bounds_iff {a : Reference × Option ℚ} (h : Convertible a) :
    Bounds (writeOf a) ↔ a.1 = activeNodesReference ∨ a.1 = retryLimitReference := by
  constructor
  · rintro (hslot | hslot)
    · exact .inl (by rw [← h.reference_eq, hslot]; rfl)
    · exact .inr (by rw [← h.reference_eq, hslot]; rfl)
  · rintro (hvr | hvr)
    · exact .inl (Option.some.inj (h.1.symm.trans (by rw [hvr]; rfl)))
    · exact .inr (Option.some.inj (h.1.symm.trans (by rw [hvr]; rfl)))

/-- An order of assignments in which the declared rules fit whenever the number
of active nodes or the retry limit is assigned and they are complete already. -/
def RulesFitOnTheWay (l : List (Reference × Option ℚ)) : Prop :=
  ∀ earlier a later q, l = earlier ++ a :: later →
    a.1 = activeNodesReference ∨ a.1 = retryLimitReference →
    earlier.foldlM assign {} = .ok q → q.ActiveRuleFieldsAreSet → q.RulesFit

/-- Two orders of the same assignments. -/
theorem setEach_perm {l' : List (Reference × Option ℚ)} (hperm : l.Perm l')
    (hnodup : (l.map Prod.fst).Nodup) (h : setEach {} l = .ok p) :
    (∀ q, setEach {} l' = .ok q → q = p) ∧ (Succeeds (setEach {} l') ↔ RulesFitOnTheWay l') := by
  obtain ⟨hconvertible, hp, haccepted⟩ := setEach_eq_ok_iff.mp h
  have hconvertible' : ∀ a ∈ l', Convertible a := fun a ha => hconvertible a (hperm.mem_iff.mpr ha)
  have hwrites := nodup_writes hconvertible hnodup
  have hpermWrites := hperm.map writeOf
  have hsame : p = writeAll {} (l'.map writeOf) := hp.trans (writeAll_perm hpermWrites hwrites {})
  refine ⟨fun q hq => ?_, ?_⟩
  · obtain ⟨_, hq, _⟩ := setEach_eq_ok_iff.mp hq
    rw [hq, hsame]
  have hsucceeds : Succeeds (setEach {} l') ↔ Accepted (l'.map writeOf) := by
    constructor
    · rintro ⟨q, hq⟩
      exact (setEach_eq_ok_iff.mp hq).2.2
    · exact fun haccepted' => ⟨p, setEach_eq_ok_iff.mpr ⟨hconvertible', hsame, haccepted'⟩⟩
  rw [hsucceeds, accepted_perm_iff hpermWrites hwrites haccepted]
  constructor
  · rintro hfits earlier a later q rfl hvr hq hset
    obtain ⟨_, rfl⟩ := foldlM_assign_eq_ok_iff.mp hq
    exact hfits (earlier.map writeOf) (writeOf a) (later.map writeOf) (by simp)
      ((hconvertible' a (by simp)).bounds_iff.mpr hvr) hset
  · intro hfits ws write zs hsplit hbounds hset
    obtain ⟨earlier, rest, rfl, rfl, hrest⟩ := map_eq_append_iff.mp hsplit
    obtain ⟨a, later, rfl, rfl, rfl⟩ := map_eq_cons_iff.mp hrest
    refine hfits earlier a later _ rfl ((hconvertible' a (by simp)).bounds_iff.mp hbounds)
      (foldlM_assign_eq_ok_iff.mpr ⟨fun x hx => hconvertible' x (by simp [hx]), rfl⟩) hset

end Parameters

end SilFormal.Can
