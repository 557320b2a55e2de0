import Mathlib

/-!
# Virtual time

Virtual time is an unsigned 64-bit number of nanoseconds.  It is modelled by
natural numbers, and the one addition the kernel performs on it,
`virtual_time_after`, states explicitly when the sum is not representable.
-/

namespace SilFormal.Kernel

/-- `UINT64_MAX`: also the "no slot left" sentinel of the run loop. -/
def uint64Max : Nat := 2 ^ 64 - 1

/-- `virtual_time_after`: the instant `deltaNs` after `fromNs`, or nothing
when the clock cannot represent it. -/
def virtualTimeAfter (fromNs deltaNs : Nat) : Option Nat :=
  if deltaNs > uint64Max - fromNs then none
  else some (fromNs + deltaNs)

theorem virtualTimeAfter_eq_some_iff {fromNs deltaNs t : Nat} (hfrom : fromNs ≤ uint64Max) :
    virtualTimeAfter fromNs deltaNs = some t ↔
      t = fromNs + deltaNs ∧ fromNs + deltaNs ≤ uint64Max := by
  unfold virtualTimeAfter
  split_ifs with h
  · constructor
    · intro h'
      cases h'
    · rintro ⟨_, hle⟩
      omega
  · constructor
    · intro h'
      injection h' with h'
      exact ⟨h'.symm, by omega⟩
    · rintro ⟨rfl, _⟩
      rfl

/-- An addition that is accepted never moves virtual time backwards. -/
theorem le_of_virtualTimeAfter {fromNs deltaNs t : Nat}
    (h : virtualTimeAfter fromNs deltaNs = some t) : t = fromNs + deltaNs := by
  unfold virtualTimeAfter at h
  split_ifs at h
  injection h with h
  exact h.symm

/-- Comparing the accepted sum with a representable instant is comparing the
sum of unbounded naturals with it. -/
theorem exists_virtualTimeAfter_le_iff {fromNs deltaNs now : Nat} (hnow : now ≤ uint64Max) :
    (∃ t, virtualTimeAfter fromNs deltaNs = some t ∧ t ≤ now) ↔ fromNs + deltaNs ≤ now := by
  constructor
  · rintro ⟨t, ht, hle⟩
    have := le_of_virtualTimeAfter ht
    omega
  · intro hle
    refine ⟨fromNs + deltaNs, ?_, hle⟩
    unfold virtualTimeAfter
    rw [if_neg]
    omega

end SilFormal.Kernel
