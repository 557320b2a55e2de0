import Mathlib

/-!
# Histories

A property of a history says of each of its entries what may come before it.
Such a property is checked entry by entry as the history grows, and it holds of
every earlier history.
-/

namespace SilFormal.History

universe u v

variable {α : Type u} {P : List α → α → Prop} {l : List α}

/-- Every entry stands in a relation to the entries before it. -/
def Always (P : List α → α → Prop) (l : List α) : Prop :=
  ∀ before a after, l = before ++ a :: after → P before a

theorem always_nil : Always P [] := by
  intro before a after h
  simp at h

theorem always_append_iff {l' : List α} :
    Always P (l ++ l') ↔ Always P l ∧ Always (fun before a => P (l ++ before) a) l' := by
  constructor
  · intro h
    refine ⟨fun before a after hl => ?_, fun before a after hl => ?_⟩
    · exact h before a (after ++ l') (by simp [hl])
    · exact h (l ++ before) a after (by simp [hl])
  · rintro ⟨hl, hl'⟩ before a after h
    -- The entry stands in the one part or in the other.
    obtain ⟨rest, rfl, hrest⟩ | ⟨rest, rfl, hrest⟩ := List.append_eq_append_iff.1 h
    · exact hl' rest a after hrest
    · cases rest with
      | nil => simpa using hl' [] a after (by simpa using hrest.symm)
      | cons b rest =>
        obtain ⟨rfl, -⟩ := List.cons_eq_cons.1 hrest
        exact hl before a rest rfl

theorem always_cons_iff {a : α} :
    Always P (a :: l) ↔ P [] a ∧ Always (fun before b => P (a :: before) b) l := by
  rw [← List.singleton_append, always_append_iff]
  constructor
  · rintro ⟨h, hl⟩
    exact ⟨h [] a [] rfl, hl⟩
  · rintro ⟨h, hl⟩
    refine ⟨fun before b after hb => ?_, hl⟩
    obtain ⟨rfl, hb⟩ | ⟨rest, rfl, hrest⟩ := List.cons_eq_append_iff.1 hb
    · obtain ⟨rfl, -⟩ := List.cons_eq_cons.1 hb
      exact h
    · simp at hrest

theorem always_snoc_iff {a : α} : Always P (l ++ [a]) ↔ Always P l ∧ P l a := by
  rw [always_append_iff, always_cons_iff, List.append_nil]
  exact and_congr_right fun _ => and_iff_left always_nil

/-- The first entry that does not have a property. -/
theorem exists_first_not {p : α → Prop} (h : ¬ ∀ a ∈ l, p a) :
    ∃ before a after, l = before ++ a :: after ∧ (∀ b ∈ before, p b) ∧ ¬ p a := by
  induction l with
  | nil => simp at h
  | cons a l ih =>
    by_cases ha : p a
    · obtain ⟨before, b, after, rfl, hbefore, hb⟩ := ih fun hl => h (by simpa [ha] using hl)
      exact ⟨a :: before, b, after, rfl, List.forall_mem_cons.2 ⟨ha, hbefore⟩, hb⟩
    · exact ⟨[], a, l, rfl, by simp, ha⟩

end SilFormal.History
