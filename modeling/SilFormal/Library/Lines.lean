import Mathlib

/-!
# Lines of a stream

A stream is cut after every separator.  What follows the last separator is its
tail, and a stream that goes on continues its tail.
-/

namespace SilFormal.Lines

open List

universe u

variable {α : Type u} [DecidableEq α] {sep : α}

/-- The terminated lines of a stream, without their separators, and its tail. -/
def split (sep : α) : List α → List (List α) × List α
  | [] => ([], [])
  | x :: rest =>
    if x = sep then ([] :: (split sep rest).1, (split sep rest).2)
    else
      match (split sep rest).1 with
      | [] => ([], x :: (split sep rest).2)
      | line :: more => ((x :: line) :: more, (split sep rest).2)

/-- No line and no tail is longer than the limit. -/
def Fit (sep : α) (limit : Nat) (stream : List α) : Prop :=
  (∀ line ∈ (split sep stream).1, line.length ≤ limit) ∧ (split sep stream).2.length ≤ limit

instance (sep : α) (limit : Nat) (stream : List α) : Decidable (Fit sep limit stream) :=
  inferInstanceAs (Decidable (_ ∧ _))

theorem split_of_notMem {stream : List α} (h : sep ∉ stream) : split sep stream = ([], stream) := by
  induction stream with
  | nil => rfl
  | cons x rest ih =>
    rw [mem_cons, not_or] at h
    obtain ⟨hx, hrest⟩ := h
    rw [split, if_neg (Ne.symm hx), ih hrest]

theorem split_append_sep {front : List α} (h : sep ∉ front) (rest : List α) :
    split sep (front ++ sep :: rest) = (front :: (split sep rest).1, (split sep rest).2) := by
  induction front with
  | nil => rw [nil_append, split, if_pos rfl]
  | cons x front ih =>
    rw [mem_cons, not_or] at h
    obtain ⟨hx, hfront⟩ := h
    rw [cons_append, split, if_neg (Ne.symm hx), ih hfront]

/-- What comes after a stream continues its tail. -/
theorem split_append (a b : List α) :
    split sep (a ++ b) = ((split sep a).1 ++ (split sep ((split sep a).2 ++ b)).1,
        (split sep ((split sep a).2 ++ b)).2) := by
  induction a with
  | nil => rfl
  | cons x a ih =>
    rw [cons_append, split, split]
    by_cases hx : x = sep
    · rw [if_pos hx, if_pos hx, ih]
      rfl
    · rw [if_neg hx, if_neg hx]
      cases hlines : (split sep a).1 with
      | nil =>
        rw [hlines, nil_append] at ih
        simp only [nil_append, cons_append]
        rw [split, if_neg hx, ih]
      | cons line more =>
        rw [hlines] at ih
        rw [ih]
        rfl

theorem fit_append_iff {limit : Nat} {a b : List α} : Fit sep limit (a ++ b) ↔
      (∀ line ∈ (split sep a).1, line.length ≤ limit) ∧ Fit sep limit ((split sep a).2 ++ b) := by
  rw [Fit, Fit, split_append a b]
  simp only [mem_append, or_imp, forall_and, and_assoc]

theorem notMem_tail (stream : List α) : sep ∉ (split sep stream).2 := by
  induction stream with
  | nil => exact not_mem_nil
  | cons x rest ih =>
    rw [split]
    by_cases hx : x = sep
    · rwa [if_pos hx]
    · rw [if_neg hx]
      cases (split sep rest).1 with
      | nil => exact fun hmem => (mem_cons.mp hmem).elim (Ne.symm hx) ih
      | cons line more => exact ih

/-- A stream that fits fits at every point. -/
theorem Fit.of_append {limit : Nat} {a b : List α} (h : Fit sep limit (a ++ b)) :
    Fit sep limit a := by
  obtain ⟨hlines, hrest⟩ := fit_append_iff.mp h
  refine ⟨hlines, ?_⟩
  by_cases hmem : sep ∈ b
  · -- the tail begins the line that the next separator ends
    obtain ⟨front, back, rfl, hfront⟩ := eq_append_cons_of_mem hmem
    have hline : sep ∉ (split sep a).2 ++ front := fun hin =>
      (mem_append.mp hin).elim (notMem_tail a) hfront
    rw [Fit, ← append_assoc, split_append_sep hline] at hrest
    have hlength := hrest.1 _ mem_cons_self
    rw [length_append] at hlength
    omega
  · have htail : sep ∉ (split sep a).2 ++ b := fun hin =>
      (mem_append.mp hin).elim (notMem_tail a) hmem
    rw [Fit, split_of_notMem htail] at hrest
    have hlength := hrest.2
    rw [length_append] at hlength
    omega

end SilFormal.Lines
