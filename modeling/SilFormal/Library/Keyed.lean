import Mathlib

/-!
# Lists under keys

Records under distinct keys are a finite map.  Insertion sort compares an
element only with elements behind it, so a numbering of the list in its given
order does not matter to the result, and it keeps the order inside every part
of the list.  A list that is sorted by a key splits at every value of the key.
-/

namespace SilFormal.Keyed

open List

universe u v

variable {α : Type u} {β : Type v} {l : List α} {s : β → β → Prop}

theorem find?_key [DecidableEq β] {key : α → β} (hnodup : (l.map key).Nodup) {x : α} (hx : x ∈ l) :
    l.find? (fun y => key y == key x) = some x := by
  have hsome : (l.find? fun y => key y == key x).isSome = true :=
    find?_isSome.mpr ⟨x, hx, by simp⟩
  obtain ⟨y, hy⟩ := Option.isSome_iff_exists.mp hsome
  have hkey : key y = key x := by simpa using find?_some hy
  rw [hy, inj_on_of_nodup_map hnodup (mem_of_find?_eq_some hy) hx hkey]

theorem map_orderedInsert {r : α → α → Prop} [DecidableRel r] [DecidableRel s] {f : α → β} {a : α}
    (h : ∀ b ∈ l, r a b ↔ s (f a) (f b)) :
    (l.orderedInsert r a).map f = (l.map f).orderedInsert s (f a) := by
  induction l with
  | nil => rfl
  | cons b rest ih =>
    have hb := h b (by simp)
    have hrest := ih fun x hx => h x (mem_cons_of_mem _ hx)
    by_cases hab : r a b
    · simp [hab, hb.mp hab]
    · have hab' : ¬ s (f a) (f b) := fun hs => hab (hb.mpr hs)
      simp [hab, hab', hrest]

/-- Sorting by a finer order that agrees on elements in their given order. -/
theorem map_insertionSort_of_pairwise {r : α → α → Prop} [DecidableRel r] [DecidableRel s]
    {f : α → β} (h : l.Pairwise fun a b => r a b ↔ s (f a) (f b)) :
    (l.insertionSort r).map f = (l.map f).insertionSort s := by
  induction l with
  | nil => rfl
  | cons a rest ih =>
    obtain ⟨ha, hrest⟩ := pairwise_cons.mp h
    rw [insertionSort_cons, map_cons, insertionSort_cons, ← ih hrest]
    apply map_orderedInsert
    intro b hb
    exact ha b ((perm_insertionSort r rest).mem_iff.mp hb)

section Filter

variable {r : α → α → Prop} [DecidableRel r] [IsTrans α r] {p : α → Bool}

theorem filter_orderedInsert {a : α} {l : List α} (hsorted : l.Pairwise r) :
    (l.orderedInsert r a).filter p =
      if p a then (l.filter p).orderedInsert r a else l.filter p := by
  induction l with
  | nil => by_cases ha : p a = true <;> simp [ha]
  | cons b rest ih =>
    obtain ⟨hb, hrest⟩ := pairwise_cons.mp hsorted
    by_cases hab : r a b
    · rw [orderedInsert_cons_of_le r rest hab]
      by_cases ha : p a = true
      · rw [filter_cons_of_pos ha, if_pos ha]
        -- everything kept from here on is not before the new element
        cases hl : (b :: rest).filter p with
        | nil => rfl
        | cons c tail =>
          have hc : c ∈ (b :: rest).filter p := by simp [hl]
          have hac : r a c := by
            rcases mem_cons.mp (mem_of_mem_filter hc) with rfl | hc
            · exact hab
            · exact IsTrans.trans a b c hab (hb c hc)
          rw [orderedInsert_cons_of_le r tail hac]
      · rw [filter_cons_of_neg ha, if_neg ha]
    · rw [orderedInsert_of_not_le r rest hab]
      have hih := ih hrest
      by_cases hpb : p b = true
      · rw [filter_cons_of_pos hpb, filter_cons_of_pos hpb, hih]
        by_cases ha : p a = true
        · rw [if_pos ha, if_pos ha, orderedInsert_of_not_le r _ hab]
        · rw [if_neg ha, if_neg ha]
      · rw [filter_cons_of_neg hpb, filter_cons_of_neg hpb, hih]

/-- Selecting before or after sorting. -/
theorem filter_insertionSort [Std.Total r] (l : List α) :
    (l.insertionSort r).filter p = (l.filter p).insertionSort r := by
  induction l with
  | nil => rfl
  | cons a rest ih =>
    rw [insertionSort_cons, filter_orderedInsert (pairwise_insertionSort r rest), ih]
    by_cases ha : p a = true
    · rw [if_pos ha, filter_cons_of_pos ha, insertionSort_cons]
    · rw [if_neg ha, filter_cons_of_neg ha]

end Filter

end SilFormal.Keyed
