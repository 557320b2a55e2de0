import Mathlib

/-!
# Intervals of a timeline

A timeline is a list in strictly increasing order of the positions of its
entries.  The entries after one position and up to another form an interval;
adjacent intervals join, and the entries up to one of them are those before it.
-/

namespace SilFormal.Timeline

open List

universe u v

/-- The entries that satisfy one of two predicates, when none of the first comes
after one of the second. -/
theorem filter_append_filter {α : Type u} {p q : α → Bool} {l : List α}
    (hself : ∀ x ∈ l, q x = true → p x = false)
    (h : l.Pairwise fun x y => q x = true → p y = false) :
    l.filter p ++ l.filter q = l.filter fun x => p x || q x := by
  induction l with
  | nil => rfl
  | cons x l ih =>
    obtain ⟨hx, hl⟩ := pairwise_cons.1 h
    have ih := ih (fun y hy => hself y (mem_cons_of_mem x hy)) hl
    simp only [filter_cons]
    cases hq : q x with
    | false => cases hp : p x <;> simp [ih]
    | true =>
      have hnone : l.filter p = [] := by
        rw [filter_eq_nil_iff]
        intro y hy
        simp [hx y hy hq]
      simpa [hself x mem_cons_self hq, hnone] using ih

variable {α : Type u} {κ : Type v} [LinearOrder κ] (key : α → κ)

/-- Entries in strictly increasing order. -/
def Sorted (l : List α) : Prop :=
  l.Pairwise fun x y => key x < key y

/-- The entries up to a position. -/
def upTo (l : List α) (b : κ) : List α :=
  l.filter fun x => decide (key x ≤ b)

/-- The entries after `a` and up to `b`. -/
def between (l : List α) (a b : κ) : List α :=
  l.filter fun x => decide (a < key x) && decide (key x ≤ b)

/-- The last entry up to a position. -/
def latest (l : List α) (b : κ) : Option α :=
  (upTo key l b).getLast?

variable {key} {l : List α} {a b c : κ} {x : α}

theorem Sorted.filter (h : Sorted key l) (p : α → Bool) : Sorted key (l.filter p) :=
  List.Pairwise.filter p h

theorem mem_between : x ∈ between key l a b ↔ x ∈ l ∧ a < key x ∧ key x ≤ b := by
  simp [between]

theorem between_self (l : List α) (a : κ) : between key l a a = [] := by
  rw [between, filter_eq_nil_iff]
  intro x _
  simp

theorem filter_between (p : α → Bool) (l : List α) (a b : κ) :
    (between key l a b).filter p = between key (l.filter p) a b := by
  rw [between, between, filter_filter, filter_filter]
  exact filter_congr fun x _ => Bool.and_comm _ _

/-- Adjacent intervals join. -/
theorem Sorted.between_append (h : Sorted key l) (hab : a ≤ b) (hbc : b ≤ c) :
    between key l a b ++ between key l b c = between key l a c := by
  rw [between, between, filter_append_filter]
  · refine filter_congr fun x _ => ?_
    by_cases hb : key x ≤ b
    · simp [hb, hb.trans hbc]
    · simp [not_le.1 hb, hab.trans_lt (not_le.1 hb)]
  · intro x _ hx
    simp only [Bool.and_eq_true, decide_eq_true_eq] at hx
    simp [hx.1]
  · refine List.Pairwise.imp (fun hxy hx => ?_) h
    simp only [Bool.and_eq_true, decide_eq_true_eq] at hx
    simp [hx.1.trans hxy]

/-- The entries up to a position, and those of the interval after it. -/
theorem Sorted.upTo_between (h : Sorted key l) (hab : a ≤ b) :
    upTo key l a ++ between key l a b = upTo key l b := by
  rw [upTo, between, filter_append_filter]
  · refine filter_congr fun x _ => ?_
    by_cases ha : key x ≤ a
    · simp [ha, ha.trans hab]
    · simp [not_le.1 ha]
  · intro x _ hx
    simp only [Bool.and_eq_true, decide_eq_true_eq] at hx
    simp [hx.1]
  · refine List.Pairwise.imp (fun hxy hx => ?_) h
    simp only [Bool.and_eq_true, decide_eq_true_eq] at hx
    simp [hx.1.trans hxy]

theorem upTo_eq_self (h : ∀ x ∈ l, key x ≤ b) : upTo key l b = l :=
  filter_eq_self.2 fun x hx => decide_eq_true (h x hx)

theorem upTo_eq_nil (h : ∀ x ∈ l, b < key x) : upTo key l b = [] :=
  filter_eq_nil_iff.2 fun x hx => by simpa using h x hx

theorem upTo_append (l l' : List α) (b : κ) :
    upTo key (l ++ l') b = upTo key l b ++ upTo key l' b :=
  filter_append _ _

theorem Sorted.le_getLast (h : Sorted key l) (hx : l.getLast? = some x) {y : α} (hy : y ∈ l) :
    key y ≤ key x := by
  obtain ⟨init, rfl⟩ := getLast?_eq_some_iff.1 hx
  obtain ⟨-, -, hcross⟩ := pairwise_append.1 h
  rcases mem_append.1 hy with hy | hy
  · exact (hcross y hy x mem_cons_self).le
  · rw [mem_singleton.1 hy]

/-- The entries up to one of an interval. -/
theorem Sorted.between_head (h : Sorted key l) {p rest : List α}
    (hl : between key l a c = p ++ x :: rest) : between key l a (key x) = p ++ [x] := by
  have hx : x ∈ between key l a c := by simp [hl]
  obtain ⟨-, hax, hxc⟩ := mem_between.1 hx
  have happend := h.between_append hax.le hxc
  rw [hl] at happend
  have hsorted : Sorted key (p ++ x :: rest) := hl ▸ h.filter _
  obtain ⟨-, hxrest, hcross⟩ := pairwise_append.1 hsorted
  obtain ⟨hxrest, -⟩ := pairwise_cons.1 hxrest
  -- The entries up to `x` are those of the two lists that are not after it.
  have hupTo := congrArg (upTo key · (key x)) happend
  have hcons : upTo key (x :: rest) (key x) = x :: upTo key rest (key x) :=
    filter_cons_of_pos (decide_eq_true le_rfl)
  rw [upTo_append, upTo_append, hcons, upTo_eq_self fun y hy => (mem_between.1 hy).2.2,
    upTo_eq_nil fun y hy => (mem_between.1 hy).2.1,
    upTo_eq_self fun y hy => (hcross y hy x mem_cons_self).le,
    upTo_eq_nil hxrest, append_nil] at hupTo
  exact hupTo

/-- The entries after one of an interval. -/
theorem Sorted.between_rest (h : Sorted key l) {p rest : List α}
    (hl : between key l a c = p ++ x :: rest) : between key l (key x) c = rest := by
  have hx : x ∈ between key l a c := by simp [hl]
  obtain ⟨-, hax, hxc⟩ := mem_between.1 hx
  have happend := h.between_append hax.le hxc
  rw [h.between_head hl, hl] at happend
  simpa using happend

end SilFormal.Timeline
