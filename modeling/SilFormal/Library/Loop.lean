import Mathlib

/-!
# Fuelled loops over a partial step function

A loop is a step function `α → Option α`; the loop leaves at the first state
on which the step function has no value.  `run` executes at most a given
number of iterations.  The module collects the rules the developments above
it use: invariants, termination by a measure, independence of the amount of
fuel, and simulation of one loop by another.
-/

namespace SilFormal.Loop

universe u v

variable {α : Type u} {β : Type v}

/-- At most `n` iterations of the loop. -/
def run (step : α → Option α) : Nat → α → α
  | 0, s => s
  | n + 1, s =>
    match step s with
    | none => s
    | some s' => run step n s'

/-- A state on which the loop leaves. -/
def Halted (step : α → Option α) (s : α) : Prop :=
  step s = none

/-- States visited by the loop started in `s`. -/
inductive Reach (step : α → Option α) (s : α) : α → Prop
  | refl : Reach step s s
  | tail {a b : α} : Reach step s a → step a = some b → Reach step s b

variable {step : α → Option α} {s t : α} {step' : β → Option β} {R : α → β → Prop}

@[simp] theorem run_zero (s : α) : run step 0 s = s := by
  rfl

theorem run_succ_none (h : step s = none) (n : Nat) : run step (n + 1) s = s := by
  simp [run, h]

theorem run_succ_some {s' : α} (h : step s = some s') (n : Nat) :
    run step (n + 1) s = run step n s' := by
  simp [run, h]

theorem run_halted (h : Halted step s) (n : Nat) : run step n s = s := by
  cases n with
  | zero => rfl
  | succ n => exact run_succ_none h n

theorem Reach.head {a b : α} (h : step s = some a) (hr : Reach step a b) : Reach step s b := by
  induction hr with
  | refl => exact Reach.tail Reach.refl h
  | tail _ hs ih => exact Reach.tail ih hs

theorem run_reach (n : Nat) (s : α) : Reach step s (run step n s) := by
  induction n generalizing s with
  | zero => exact Reach.refl
  | succ n ih =>
    cases h : step s with
    | none =>
      rw [run_succ_none h]
      exact Reach.refl
    | some s' =>
      rw [run_succ_some h]
      exact Reach.head h (ih s')

/-- Invariant rule: what holds at entry and is kept by every iteration holds
in every visited state. -/
theorem Reach.invariant {I : α → Prop} (hstep : ∀ a b, I a → step a = some b → I b)
    (hr : Reach step s t) (hs : I s) : I t := by
  induction hr with
  | refl => exact hs
  | tail _ h ih => exact hstep _ _ ih h

/-- Termination rule: an invariant under which a measure decreases bounds the
number of iterations by the value of the measure at entry. -/
theorem run_halts {I : α → Prop} (μ : α → Nat) (hstep : ∀ a b, I a → step a = some b → I b)
    (hμ : ∀ a b, I a → step a = some b → μ b < μ a) :
    ∀ (n : Nat) (s : α), I s → μ s ≤ n → Halted step (run step n s)
  | 0, s, hs, hn => by
    cases h : step s with
    | none => exact h
    | some b =>
      have := hμ s b hs h
      omega
  | n + 1, s, hs, hn => by
    cases h : step s with
    | none =>
      rw [run_succ_none h]
      exact h
    | some b =>
      rw [run_succ_some h]
      have := hμ s b hs h
      exact run_halts μ hstep hμ n b (hstep s b hs h) (by omega)

/-- Fuel beyond the halting point changes nothing. -/
theorem run_eq_of_halted {n m : Nat} (hn : Halted step (run step n s))
    (hm : Halted step (run step m s)) : run step n s = run step m s := by
  induction n generalizing m s with
  | zero => exact (run_halted hn m).symm
  | succ n ih =>
    cases h : step s with
    | none => rw [run_succ_none h, run_halted h]
    | some s' =>
      rw [run_succ_some h] at hn ⊢
      cases m with
      | zero =>
        have hs : step s = none := hm
        simp [h] at hs
      | succ m =>
        rw [run_succ_some h] at hm ⊢
        exact ih hn hm

/-- Every visited state is reached with some amount of fuel. -/
theorem Reach.exists_run (h : Reach step s t) : ∃ n, run step n s = t := by
  induction h with
  | refl => exact ⟨0, rfl⟩
  | @tail a b _ hstep ih =>
    obtain ⟨n, hn⟩ := ih
    -- one more iteration than the prefix needs
    refine ⟨n + 1, ?_⟩
    clear * - hn hstep
    induction n generalizing s with
    | zero =>
      subst hn
      exact run_succ_some hstep 0
    | succ n ih =>
      cases hs : step s with
      | none =>
        rw [run_succ_none hs] at hn
        subst hn
        simp [hs] at hstep
      | some s' =>
        rw [run_succ_some hs] at hn ⊢
        exact ih hn

/-- The loop has one halting state. -/
theorem Reach.eq_run_of_halted {n : Nat} (h : Reach step s t) (ht : Halted step t)
    (hn : Halted step (run step n s)) : t = run step n s := by
  obtain ⟨k, rfl⟩ := h.exists_run
  exact run_eq_of_halted ht hn

theorem Reach.trans {u : α} (h : Reach step s t) (h' : Reach step t u) : Reach step s u := by
  induction h' with
  | refl => exact h
  | tail _ hstep ih => exact ih.tail hstep

/-- The halting state is reached from every visited state. -/
theorem Reach.to_halted {u : α} (h : Reach step s t) (hu : Reach step s u) (hhalt : Halted step u) :
    Reach step t u := by
  induction h with
  | refl => exact hu
  | @tail a b _ hstep ih =>
    obtain ⟨n, hn⟩ := ih.exists_run
    cases n with
    | zero =>
      -- the halting state has no successor
      rw [run_zero] at hn
      subst hn
      rw [Halted, hstep] at hhalt
      cases hhalt
    | succ n =>
      rw [run_succ_some hstep] at hn
      exact hn ▸ run_reach n b

/-- Forward simulation: every iteration of one loop is matched by any number
of iterations of the other. -/
theorem Reach.simulates (hstep : ∀ a a' b, R a b → step a = some a' →
      ∃ b', Reach step' b b' ∧ R a' b') {s' : β} (h : Reach step s t) (hs : R s s') :
    ∃ t', Reach step' s' t' ∧ R t t' := by
  induction h with
  | refl => exact ⟨s', .refl, hs⟩
  | tail _ hnext ih =>
    obtain ⟨t', hreach, hrel⟩ := ih
    obtain ⟨u', hmore, hrel'⟩ := hstep _ _ _ hrel hnext
    exact ⟨u', hreach.trans hmore, hrel'⟩

/-- Lockstep simulation: related states either both leave the loop or both
iterate into related states. -/
theorem run_lockstep (hstep : ∀ a b, R a b → (step a = none ∧ step' b = none) ∨
      ∃ a' b', step a = some a' ∧ step' b = some b' ∧ R a' b') (n : Nat) {a : α} {b : β}
    (h : R a b) : R (run step n a) (run step' n b) := by
  induction n generalizing a b with
  | zero => exact h
  | succ n ih =>
    rcases hstep a b h with ⟨ha, hb⟩ | ⟨a', b', ha, hb, h'⟩
    · rw [run_succ_none ha, run_succ_none hb]
      exact h
    · rw [run_succ_some ha, run_succ_some hb]
      exact ih h'

/-- Lockstep simulation up to the end of both loops. -/
theorem run_lockstep_halted (hstep : ∀ a b, R a b → (step a = none ∧ step' b = none) ∨
      ∃ a' b', step a = some a' ∧ step' b = some b' ∧ R a' b') {n m : Nat} {a : α} {b : β}
    (h : R a b) (hn : Halted step (run step n a)) (hm : Halted step' (run step' m b)) :
    R (run step n a) (run step' m b) := by
  have hsync := run_lockstep hstep n h
  have hhalt : Halted step' (run step' n b) := by
    rcases hstep _ _ hsync with ⟨_, hnone⟩ | ⟨_, _, hsome, _⟩
    · exact hnone
    · cases hsome.symm.trans hn
  rwa [run_eq_of_halted hhalt hm] at hsync

end SilFormal.Loop
