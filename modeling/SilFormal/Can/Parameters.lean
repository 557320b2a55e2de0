import SilFormal.Can.Reachable
import SilFormal.Fmi.Runtime

/-!
# The parameters of the CAN model

`Parameters` of the adapter and `fmi3SetFloat64` on them.  Every call checks the
limits of the scalar parameters, and it checks the fault rules as soon as all
fields of the declared rules are set.  A double is its rational value, or `none`
if it is not finite.
-/

namespace SilFormal.Can

open Fallible
open Fmi (Reference)

def activeNodesReference : Reference := (1025 : Nat)
def queueCapacityReference : Reference := (1026 : Nat)
def retryLimitReference : Reference := (1027 : Nat)
def faultRuleCountReference : Reference := (1028 : Nat)
def bufferCapacityReference : Reference := (1029 : Nat)
def faultRuleBase : Nat := 1100
abbrev faultRuleStride : Nat := 8
abbrev faultRuleCapacity : Nat := 8

/-- `Parameters`. -/
structure Parameters where
  activeNodes : Nat := 2
  queueCapacity : Nat := 4
  bufferCapacity : Nat := maxOperationBuffer
  retryLimit : Nat := 1
  faultRuleCount : Nat := 0
  faultRuleCountSet : Bool := false
  faultRules : Fin faultRuleCapacity → Fin faultRuleStride → Nat := fun _ _ => 0
  faultRuleFieldsSet : Fin faultRuleCapacity → Fin faultRuleStride → Bool := fun _ _ => false
deriving DecidableEq

/-- `whole_count`. -/
def wholeCount (value : Option ℚ) : Except String Nat :=
  match value with
  | none => .error "CAN configuration counts must be representable nonnegative integers"
  | some q => do
      require (0 ≤ q ∧ q ≤ 2 ^ 32 - 1 ∧ (⌊q⌋ : ℚ) = q)
        "CAN configuration counts must be representable nonnegative integers"
      .ok ⌊q⌋.toNat

/-- `whole_integer`. -/
def wholeInteger (value : Option ℚ) : Except String Nat :=
  match value with
  | none => .error "CAN parameters must be exactly representable nonnegative integers"
  | some q => do
      require (0 ≤ q ∧ q ≤ 9007199254740991 ∧ (⌊q⌋ : ℚ) = q)
        "CAN parameters must be exactly representable nonnegative integers"
      .ok ⌊q⌋.toNat

/-- `fault_parameter`. -/
def faultParameter (vr : Reference) : Option (Fin faultRuleCapacity × Fin faultRuleStride) :=
  if h : faultRuleBase ≤ vr ∧ vr < faultRuleBase + faultRuleStride * faultRuleCapacity then
    some (⟨(vr - faultRuleBase) / faultRuleStride,
        Nat.div_lt_of_lt_mul (Nat.sub_lt_left_of_lt_add h.1 h.2)⟩,
      ⟨(vr - faultRuleBase) % faultRuleStride, Nat.mod_lt _ (by decide)⟩)
  else none

/-- A parameter that `fmi3SetFloat64` can write. -/
inductive Slot
  | activeNodes
  | queueCapacity
  | bufferCapacity
  | retryLimit
  | faultRuleCount
  | field (rule : Fin faultRuleCapacity) (index : Fin faultRuleStride)
deriving DecidableEq

/-- The chain of references in `fmi3SetFloat64`. -/
def slotOf (vr : Reference) : Option Slot :=
  if vr = activeNodesReference then some .activeNodes
  else if vr = queueCapacityReference then some .queueCapacity
  else if vr = bufferCapacityReference then some .bufferCapacity
  else if vr = retryLimitReference then some .retryLimit
  else if vr = faultRuleCountReference then some .faultRuleCount
  else (faultParameter vr).map fun location => .field location.1 location.2

/-- The conversion of the value of a parameter. -/
def Slot.number : Slot → Option ℚ → Except String Nat
  | .activeNodes, value => wholeCount value
  | .queueCapacity, value => wholeCount value
  | .bufferCapacity, value => wholeCount value
  | .retryLimit, value => wholeInteger value
  | .faultRuleCount, value => wholeInteger value
  | .field _ _, value => wholeInteger value

namespace Parameters

/-- One write of a converted value. -/
def store (p : Parameters) : Slot → Nat → Parameters
  | .activeNodes, n => { p with activeNodes := n }
  | .queueCapacity, n => { p with queueCapacity := n }
  | .bufferCapacity, n => { p with bufferCapacity := n }
  | .retryLimit, n => { p with retryLimit := n }
  | .faultRuleCount, n => { p with faultRuleCount := n, faultRuleCountSet := true }
  | .field rule index, n =>
    { p with
      faultRules := Function.update p.faultRules rule
        (Function.update (p.faultRules rule) index n)
      faultRuleFieldsSet := Function.update p.faultRuleFieldsSet rule
        (Function.update (p.faultRuleFieldsSet rule) index true) }

/-- One iteration of the loop of `fmi3SetFloat64`. -/
def assign (p : Parameters) (assignment : Reference × Option ℚ) : Except String Parameters :=
  match slotOf assignment.1 with
  | none => .error "unknown Float64 parameter reference"
  | some slot => do
      let n ← slot.number assignment.2
      .ok (p.store slot n)

/-- The entry of a rule in `fault_rule_inputs`. -/
def ruleInput (p : Parameters) (rule : Fin faultRuleCapacity) : FaultRuleInput where
  kind := p.faultRules rule 0
  senderNode := p.faultRules rule 1
  receiverNode := p.faultRules rule 2
  identifier := p.faultRules rule 3
  firstRequest := p.faultRules rule 4
  lastRequest := p.faultRules rule 5
  occurrence := p.faultRules rule 6
  attempt := p.faultRules rule 7

/-- `fault_rule_inputs`. -/
def faultRuleInputs (p : Parameters) : List FaultRuleInput :=
  (List.finRange faultRuleCapacity).map p.ruleInput

/-- `active_rule_fields_are_set`. -/
def ActiveRuleFieldsAreSet (p : Parameters) : Prop :=
  p.faultRuleCountSet = true ∧ p.faultRuleCount ≠ 0 ∧
    ∀ rule : Fin faultRuleCapacity, rule.val < p.faultRuleCount →
      ∀ index, p.faultRuleFieldsSet rule index = true

instance (p : Parameters) : Decidable p.ActiveRuleFieldsAreSet :=
  inferInstanceAs (Decidable (_ ∧ _ ∧ _))

/-- The checks of `fmi3SetFloat64` after its loop. -/
def validate (p : Parameters) : Except String PUnit := do
  Bus.validateConfigurationLimits p.activeNodes p.queueCapacity p.retryLimit p.faultRuleCount
    p.bufferCapacity
  if p.ActiveRuleFieldsAreSet then do
    let _ ← Bus.configure p.activeNodes p.queueCapacity p.retryLimit p.faultRuleCount
      (p.faultRuleInputs.take p.faultRuleCount) p.bufferCapacity {}
    .ok ⟨⟩
  else .ok ⟨⟩

/-- What `fmi3SetFloat64` makes of the parameters. -/
def set (p : Parameters) (assignments : List (Reference × Option ℚ)) :
    Except String Parameters := do
  let next ← assignments.foldlM assign p
  next.validate
  .ok next

end Parameters

end SilFormal.Can
