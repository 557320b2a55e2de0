import Mathlib

/-!
# Threads over a shared memory

Every thread has a control state of its own, and one step of a thread is one
atomic operation on the shared memory.  Threads take their steps in any order.
An assertion about the memory and one for each thread hold in every run if a
step keeps the assertion of the memory, that of its own thread, and those of
all others.
-/

namespace SilFormal.SharedMemory

universe u v w z

variable {T : Type u} {S : Type v} {P : Type w} {A : Type z}

/-- The memory, and where every thread stands. -/
structure State (T : Type u) (S : Type v) (P : Type w) where
  memory : S
  control : T → P

/-- The atomic operation of a thread, given what its environment chooses. -/
abbrev Program (T : Type u) (S : Type v) (P : Type w) (A : Type z) := T → A → S → P → S × P

variable [DecidableEq T] (exec : Program T S P A)

/-- One step of one thread. -/
def step (s : State T S P) (a : T × A) : State T S P :=
  let r := exec a.1 a.2 s.memory (s.control a.1)
  { memory := r.1, control := Function.update s.control a.1 r.2 }

/-- Steps in the order they are taken. -/
def run (s : State T S P) (actions : List (T × A)) : State T S P :=
  actions.foldl (step exec) s

/-- Every step of a run meets a condition on the state it is taken in. -/
def Every (C : State T S P → T × A → Prop) (s : State T S P) : List (T × A) → Prop
  | [] => True
  | a :: actions => C s a ∧ Every C (step exec s a) actions

instance decidableEvery (C : State T S P → T × A → Prop) [∀ s a, Decidable (C s a)]
    (s : State T S P) (actions : List (T × A)) : Decidable (Every exec C s actions) :=
  match actions with
  | [] => isTrue trivial
  | a :: actions =>
    have := decidableEvery C (step exec s a) actions
    inferInstanceAs (Decidable (_ ∧ _))

/-- An assertion for the memory and one for every thread. -/
def Holds (G : S → Prop) (L : T → S → P → Prop) (s : State T S P) : Prop :=
  G s.memory ∧ ∀ t, L t s.memory (s.control t)

variable {exec} {G : S → Prop} {L : T → S → P → Prop}

theorem Holds.step
    (hown : ∀ t a s p, G s → L t s p → G (exec t a s p).1 ∧ L t (exec t a s p).1 (exec t a s p).2)
    (hother : ∀ t a s p, G s → L t s p → ∀ t' q, t' ≠ t → L t' s q → L t' (exec t a s p).1 q)
    {s : State T S P} (h : Holds G L s) (a : T × A) : Holds G L (step exec s a) := by
  obtain ⟨hG, hL⟩ := hown a.1 a.2 s.memory (s.control a.1) h.1 (h.2 a.1)
  refine ⟨hG, fun t => ?_⟩
  by_cases ht : t = a.1
  · subst ht
    simpa [SharedMemory.step] using hL
  · simpa [SharedMemory.step, ht] using
      hother a.1 a.2 s.memory (s.control a.1) h.1 (h.2 a.1) t (s.control t) ht (h.2 t)

theorem Holds.run
    (hown : ∀ t a s p, G s → L t s p → G (exec t a s p).1 ∧ L t (exec t a s p).1 (exec t a s p).2)
    (hother : ∀ t a s p, G s → L t s p → ∀ t' q, t' ≠ t → L t' s q → L t' (exec t a s p).1 q)
    {s : State T S P} (h : Holds G L s) (actions : List (T × A)) :
    Holds G L (run exec s actions) := by
  induction actions generalizing s with
  | nil => exact h
  | cons a actions ih => exact ih (h.step hown hother a)

section Counter

variable {C : State T S P → T × A → Prop} {n : State T S P → Nat}

theorem counter_le_run (hle : ∀ s a, n s ≤ n (step exec s a)) (s : State T S P)
    (actions : List (T × A)) : n s ≤ n (run exec s actions) := by
  induction actions generalizing s with
  | nil => exact Nat.le_refl _
  | cons a actions ih => exact Nat.le_trans (hle s a) (ih _)

/-- A counter of the steps that do not meet the condition stays where it is if
there are none. -/
theorem every_iff_counter (hle : ∀ s a, n s ≤ n (step exec s a))
    (heq : ∀ s a, n (step exec s a) = n s ↔ C s a) (s : State T S P) (actions : List (T × A)) :
    Every exec C s actions ↔ n (run exec s actions) = n s := by
  induction actions generalizing s with
  | nil => simp [run, Every]
  | cons a actions ih =>
    have hfirst := hle s a
    have hrest := counter_le_run hle (step exec s a) actions
    rw [Every, ih, ← heq]
    change _ ↔ n (run exec (step exec s a) actions) = n s
    omega

end Counter

end SilFormal.SharedMemory
