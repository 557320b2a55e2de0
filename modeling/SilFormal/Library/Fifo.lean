import Mathlib

/-!
# Queues whose owner drains what is visible

A bounded FIFO receives elements by offers, which are refused when it is full,
and is drained by activations of its owner.  An activation at an instant takes
elements from the front as long as they are visible at that instant, so an
element that is not visible yet holds back everything behind it.

`Run` is the set of histories of such a queue.  The main result says at which
activation each element is taken: at the first one after its acceptance at
which it and everything accepted before it are visible.
-/

namespace SilFormal.Fifo

open List

universe u

/-- One event in the history of a queue. -/
inductive Event (α : Type u) where
  | accepted (x : α)
  | refused (x : α)
  | activated (t : Nat)
  | took (x : α)
deriving DecidableEq, Repr

variable {α : Type u}

namespace Event

/-- The element of an offer, accepted or not. -/
def offered : Event α → Option α
  | accepted x => some x
  | refused x => some x
  | activated _ => none
  | took _ => none

def accepted? : Event α → Option α
  | accepted x => some x
  | _ => none

def took? : Event α → Option α
  | took x => some x
  | _ => none

def activated? : Event α → Option Nat
  | activated t => some t
  | _ => none

end Event

/-- The effect of one event on the contents of the queue. -/
def contentsStep (q : List α) : Event α → List α
  | .accepted x => q ++ [x]
  | .refused _ => q
  | .activated _ => q
  | .took _ => q.tail

/-- What the queue holds after a history. -/
def contents (h : List (Event α)) : List α :=
  h.foldl contentsStep []

/-- The instants of the activations of a history. -/
def activations (h : List (Event α)) : List Nat :=
  h.filterMap Event.activated?

/-- The elements `pick` selects, each with the number of activations before
it; `n` of them came before the history. -/
def mark (pick : Event α → Option α) : Nat → List (Event α) → List (α × Nat)
  | _, [] => []
  | n, e :: rest =>
    ((pick e).map fun x => (x, n)).toList ++ mark pick (n + e.activated?.toList.length) rest

/-- The accepted elements, each with the number of activations before its
acceptance: its later activations are those from that index on. -/
def acceptedAt (h : List (Event α)) : List (α × Nat) :=
  mark Event.accepted? 0 h

/-- The taken elements, each with the index of the activation that took it. -/
def takenAt (h : List (Event α)) : List (α × Nat) :=
  (mark Event.took? 0 h).map fun p => (p.1, p.2 - 1)

/-- Whether an offer finds the queue at its capacity. -/
def full (capacity : Option Nat) (q : List α) : Bool :=
  match capacity with
  | none => false
  | some c => decide (c ≤ q.length)

/-- Histories of a queue, with its contents. -/
inductive Run (vis : Nat → α → Bool) (capacity : Option Nat) : List α → List (Event α) → Prop
  | start : Run vis capacity [] []
  | offer {q : List α} {h : List (Event α)} (x : α) : Run vis capacity q h →
      Run vis capacity (if full capacity q then q else q ++ [x])
        (h ++ [if full capacity q then .refused x else .accepted x])
  | activate {q : List α} {h : List (Event α)} {t : Nat} : Run vis capacity q h →
      (∀ s ∈ activations h, s ≤ t) →
      Run vis capacity (q.dropWhile (vis t))
        (h ++ .activated t :: (q.takeWhile (vis t)).map .took)

/-- At the activation with index `k`, the `i`-th accepted element and all
accepted before it are visible. -/
def Due (vis : Nat → α → Bool) (h : List (Event α)) (i k : Nat) : Prop :=
  ∃ t, (activations h)[k]? = some t ∧
    ∀ j ≤ i, ∀ x a, (acceptedAt h)[j]? = some (x, a) → vis t x = true

/-- `k` is the first activation from index `a` on that is due for `i`. -/
def FirstDue (vis : Nat → α → Bool) (h : List (Event α)) (i a k : Nat) : Prop :=
  a ≤ k ∧ Due vis h i k ∧ ∀ k', a ≤ k' → k' < k → ¬ Due vis h i k'

/-! ## Histories and append -/

theorem contents_append (h h' : List (Event α)) :
    contents (h ++ h') = h'.foldl contentsStep (contents h) :=
  foldl_append

theorem activations_append (h h' : List (Event α)) :
    activations (h ++ h') = activations h ++ activations h' :=
  filterMap_append

theorem mark_append (pick : Event α → Option α) (n : Nat) (h h' : List (Event α)) :
    mark pick n (h ++ h') = mark pick n h ++ mark pick (n + (activations h).length) h' := by
  induction h generalizing n with
  | nil => simp [mark, activations]
  | cons e rest ih =>
    have hlen : (activations (e :: rest)).length =
        e.activated?.toList.length + (activations rest).length := by
      unfold activations
      cases he : e.activated? <;> simp [he, Nat.add_comm]
    simp only [cons_append, mark, ih, append_assoc, hlen, Nat.add_assoc]

theorem mark_took_map (pick : Event α → Option α) {p : α → Option α}
    (hp : ∀ x, pick (.took x) = p x) (n : Nat) (xs : List α) :
    mark pick n (xs.map .took) = (xs.filterMap p).map fun x => (x, n) := by
  induction xs with
  | nil => rfl
  | cons x rest ih =>
    have hstep : mark pick n ((x :: rest).map Event.took) =
        ((p x).map fun y => (y, n)).toList ++ mark pick n (rest.map .took) := by
      rw [map_cons, mark, hp]
      rfl
    rw [hstep, ih]
    cases hx : p x <;> simp [hx]

theorem foldl_took (q xs : List α) :
    (xs.map Event.took).foldl contentsStep q = q.drop xs.length := by
  induction xs generalizing q with
  | nil => simp
  | cons x rest ih =>
    simp only [map_cons, foldl_cons, ih, contentsStep, length_cons]
    rw [← drop_one, drop_drop, Nat.add_comm]

section Activation

variable (h : List (Event α)) (t : Nat) (xs : List α)

theorem activations_activate :
    activations (h ++ .activated t :: xs.map .took) = activations h ++ [t] := by
  simp [activations, Event.activated?]

theorem acceptedAt_activate : acceptedAt (h ++ .activated t :: xs.map .took) = acceptedAt h := by
  unfold acceptedAt
  rw [mark_append]
  have hnil : mark Event.accepted? (0 + (activations h).length)
      (.activated t :: xs.map .took) = [] := by
    unfold mark
    rw [mark_took_map Event.accepted? (fun _ => rfl)]
    simp [Event.accepted?]
  rw [hnil, append_nil]

theorem takenAt_activate : takenAt (h ++ .activated t :: xs.map .took) =
      takenAt h ++ xs.map fun x => (x, (activations h).length) := by
  unfold takenAt
  rw [mark_append]
  unfold mark
  rw [mark_took_map Event.took? (fun _ => rfl)]
  simp [Event.took?, Event.activated?]

end Activation

section Offer

variable (h : List (Event α)) (x : α)

theorem activations_accepted : activations (h ++ [.accepted x]) = activations h := by
  rw [activations_append]
  exact append_nil _

theorem acceptedAt_accepted : acceptedAt (h ++ [.accepted x]) =
      acceptedAt h ++ [(x, (activations h).length)] := by
  unfold acceptedAt
  rw [mark_append]
  simp [mark, Event.accepted?]

theorem takenAt_accepted : takenAt (h ++ [.accepted x]) = takenAt h := by
  unfold takenAt
  rw [mark_append]
  simp [mark, Event.took?]

theorem offer_refused : activations (h ++ [.refused x]) = activations h ∧
      acceptedAt (h ++ [.refused x]) = acceptedAt h ∧
      takenAt (h ++ [.refused x]) = takenAt h := by
  refine ⟨?_, ?_, ?_⟩
  · rw [activations_append]
    exact append_nil _
  · unfold acceptedAt
    rw [mark_append]
    simp [mark, Event.accepted?]
  · unfold takenAt
    rw [mark_append]
    simp [mark, Event.took?]

end Offer

/-! ## Contents and capacity -/

section Contents

variable {vis : Nat → α → Bool} {capacity : Option Nat}

theorem Run.contents_eq {q : List α} {h : List (Event α)} (hrun : Run vis capacity q h) :
    contents h = q := by
  induction hrun with
  | start => rfl
  | @offer q h x hrun ih =>
    rw [contents_append, ih]
    cases full capacity q <;> rfl
  | @activate q h t hrun hle ih =>
    rw [contents_append, ih, foldl_cons]
    rw [foldl_took]
    nth_rewrite 2 [← takeWhile_append_dropWhile (p := vis t) (l := q)]
    exact drop_left

/-- What is taken and what is left make up what was accepted, in order. -/
theorem Run.conservation {q : List α} {h : List (Event α)} (hrun : Run vis capacity q h) :
    (takenAt h).map Prod.fst ++ q = (acceptedAt h).map Prod.fst := by
  induction hrun with
  | start => rfl
  | @offer q h x hrun ih =>
    cases full capacity q with
    | true =>
      obtain ⟨_, haccepted, htaken⟩ := offer_refused h x
      simpa only [if_true, haccepted, htaken] using ih
    | false =>
      simp only [Bool.false_eq_true, if_false, takenAt_accepted,
        acceptedAt_accepted, map_append, ← ih, append_assoc]
      rfl
  | @activate q h t hrun hle ih =>
    rw [takenAt_activate, acceptedAt_activate, ← ih, map_append, append_assoc]
    simp [Function.comp_def]

theorem not_full_iff {c : Nat} {q : List α} : full (some c) q = false ↔ q.length < c := by
  simp [full]

/-- Taking never makes the queue longer. -/
theorem contentsStep_length_le {q : List α} {e : Event α} (he : e.accepted? = none) :
    (contentsStep q e).length ≤ q.length := by
  cases e with
  | accepted x => cases he
  | took x => simp [contentsStep]
  | _ => exact le_rfl

theorem foldl_contentsStep_length_le {q : List α} {events : List (Event α)}
    (h : ∀ e ∈ events, e.accepted? = none) : (events.foldl contentsStep q).length ≤ q.length := by
  induction events generalizing q with
  | nil => exact le_rfl
  | cons e rest ih =>
    have hhead := contentsStep_length_le (q := q) (h e (by simp))
    have hrest := ih (q := contentsStep q e) fun e' he' => h e' (mem_cons_of_mem _ he')
    exact hrest.trans hhead

/-- An activation and its takes offer nothing. -/
theorem offered_activate {t : Nat} {xs : List α} {e : Event α}
    (he : e ∈ Event.activated t :: xs.map Event.took) : e.offered = none ∧ e.accepted? = none := by
  rcases mem_cons.mp he with rfl | he
  · exact ⟨rfl, rfl⟩
  · obtain ⟨x, _, rfl⟩ := mem_map.mp he
    exact ⟨rfl, rfl⟩

theorem prefix_append_cases {β : Type u} {pre h l : List β} (hpre : pre <+: h ++ l) :
    pre <+: h ∨ ∃ l', l' <+: l ∧ pre = h ++ l' := by
  obtain ⟨post, hpost⟩ := hpre
  rcases append_eq_append_iff.mp hpost with ⟨m, hm, _⟩ | ⟨m, hm, hl⟩
  · exact .inl ⟨m, hm.symm⟩
  · exact .inr ⟨m, ⟨post, hl.symm⟩, hm⟩

/-- At every moment the queue holds at most its capacity. -/
theorem Run.length_le {c : Nat} {q : List α} {h : List (Event α)} (hrun : Run vis (some c) q h) :
    ∀ pre, pre <+: h → (contents pre).length ≤ c := by
  induction hrun with
  | start =>
    intro pre hpre
    rw [prefix_nil.mp hpre]
    exact Nat.zero_le c
  | @offer q h x hrun ih =>
    intro pre hpre
    rcases prefix_concat_iff.mp hpre with rfl | hpre
    · rw [contents_append, hrun.contents_eq]
      cases hfull : full (some c) q with
      | true =>
        have := ih h prefix_rfl
        rwa [hrun.contents_eq] at this
      | false =>
        have hlt := not_full_iff.mp hfull
        simp [contentsStep]
        omega
    · exact ih pre hpre
  | @activate q h t hrun hle ih =>
    intro pre hpre
    rcases prefix_append_cases hpre with hpre | ⟨l, hl, rfl⟩
    · exact ih pre hpre
    · rw [contents_append]
      refine (foldl_contentsStep_length_le fun e he => ?_).trans
        (ih h prefix_rfl)
      exact (offered_activate (hl.subset he)).2

/-- An offer is accepted exactly when the queue is not full at that moment. -/
theorem Run.offer_eq {q : List α} {h : List (Event α)} (hrun : Run vis capacity q h) :
    ∀ pre e x, pre ++ [e] <+: h → e.offered = some x →
      e = if full capacity (contents pre) then .refused x else .accepted x := by
  induction hrun with
  | start =>
    intro pre e x hpre _
    simp at hpre
  | @offer q h y hrun ih =>
    intro pre e x hpre hx
    rcases prefix_concat_iff.mp hpre with hlast | hpre
    · obtain ⟨rfl, he⟩ := append_inj' hlast rfl
      rw [hrun.contents_eq]
      injection he with he
      subst he
      cases hfull : full capacity q <;> rw [hfull] at hx <;> injection hx with hx <;>
        subst hx <;> rfl
    · exact ih pre e x hpre hx
  | @activate q h t hrun hle ih =>
    intro pre e x hpre hx
    rcases prefix_append_cases hpre with hpre | ⟨l, hl, heq⟩
    · exact ih pre e x hpre hx
    · rcases eq_nil_or_concat l with rfl | ⟨l', e', rfl⟩
      · rw [append_nil] at heq
        exact ih pre e x (heq ▸ prefix_rfl) hx
      · -- the last event would belong to the activation
        rw [concat_eq_append, ← append_assoc] at heq
        obtain ⟨_, he⟩ := append_inj' heq rfl
        injection he with he
        subst he
        rw [(offered_activate (hl.subset (by simp))).1] at hx
        cases hx

/-- At every moment what is taken and what the queue holds make up what was
accepted. -/
theorem Run.conservation_prefix {q : List α} {h : List (Event α)} (hrun : Run vis capacity q h) :
    ∀ pre, pre <+: h →
      (takenAt pre).map Prod.fst ++ contents pre = (acceptedAt pre).map Prod.fst := by
  induction hrun with
  | start =>
    intro pre hpre
    rw [prefix_nil.mp hpre]
    rfl
  | @offer q h x hrun ih =>
    intro pre hpre
    rcases prefix_concat_iff.mp hpre with rfl | hpre
    · have hnext := hrun.offer x
      rw [hnext.contents_eq]
      exact hnext.conservation
    · exact ih pre hpre
  | @activate q h t hrun hle ih =>
    intro pre hpre
    rcases prefix_append_cases hpre with hpre | ⟨l, hl, rfl⟩
    · exact ih pre hpre
    · cases l with
      | nil =>
        rw [append_nil]
        exact ih h prefix_rfl
      | cons e rest =>
        -- some of the takes of the activation have happened
        obtain ⟨rfl, hrest⟩ := cons_prefix_cons.mp hl
        rw [prefix_iff_eq_take, ← map_take] at hrest
        generalize hxs : (q.takeWhile (vis t)).take rest.length = xs at hrest
        subst hrest
        have hxq : xs <+: q :=
          (hxs ▸ take_prefix _ _).trans (List.takeWhile_prefix _)
        obtain ⟨left, rfl⟩ := hxq
        have hcontents : contents (h ++ .activated t :: xs.map .took) = left := by
          rw [contents_append, hrun.contents_eq]
          exact (foldl_took _ _).trans drop_left
        rw [hcontents, takenAt_activate, acceptedAt_activate, ← hrun.conservation]
        simp [Function.comp_def]

end Contents

/-! ## When an element is taken -/

section Instants

variable {vis : Nat → α → Bool} {capacity : Option Nat} {i k : Nat}

/-- Every element that was taken was taken when it was first due, and no other
element has been due so far. -/
structure Timed (vis : Nat → α → Bool) (h : List (Event α)) : Prop where
  accepted_le : ∀ (i : Nat) (x : α) (a : Nat), (acceptedAt h)[i]? = some (x, a) →
    a ≤ (activations h).length
  taken : ∀ (i : Nat) (x : α) (k : Nat), (takenAt h)[i]? = some (x, k) →
    ∃ a, (acceptedAt h)[i]? = some (x, a) ∧ FirstDue vis h i a k
  pending : ∀ (i : Nat) (x : α) (a : Nat), (takenAt h).length ≤ i →
    (acceptedAt h)[i]? = some (x, a) → ∀ k, a ≤ k → ¬ Due vis h i k

theorem Due.lt_length {h : List (Event α)} (hdue : Due vis h i k) : k < (activations h).length := by
  obtain ⟨t, ht, _⟩ := hdue
  exact (List.getElem?_eq_some_iff.mp ht).1

/-- An acceptance does not change when earlier elements are due. -/
theorem due_accepted_iff (h : List (Event α)) (x : α) (hi : i < (acceptedAt h).length) :
    Due vis (h ++ [.accepted x]) i k ↔ Due vis h i k := by
  unfold Due
  rw [activations_accepted, acceptedAt_accepted]
  have hget : ∀ j ≤ i, (acceptedAt h ++ [(x, (activations h).length)])[j]? =
      (acceptedAt h)[j]? := fun j hj => getElem?_append_left (by omega)
  constructor
  · rintro ⟨t, ht, hall⟩
    exact ⟨t, ht, fun j hj y a hy => hall j hj y a ((hget j hj).trans hy)⟩
  · rintro ⟨t, ht, hall⟩
    exact ⟨t, ht, fun j hj y a hy => hall j hj y a ((hget j hj).symm.trans hy)⟩

/-- An activation does not change what was due at the earlier ones. -/
theorem due_activate_iff (h : List (Event α)) (t : Nat) (xs : List α)
    (hk : k < (activations h).length) :
    Due vis (h ++ .activated t :: xs.map .took) i k ↔ Due vis h i k := by
  unfold Due
  rw [activations_activate, acceptedAt_activate, getElem?_append_left hk]

/-- What is due at a new activation: everything up to `i` is visible at it. -/
theorem due_activate_last (h : List (Event α)) (t : Nat) (xs : List α) :
    Due vis (h ++ .activated t :: xs.map .took) i (activations h).length ↔
      ∀ j ≤ i, ∀ x a, (acceptedAt h)[j]? = some (x, a) → vis t x = true := by
  unfold Due
  rw [activations_activate, acceptedAt_activate]
  simp

theorem FirstDue.congr {h h' : List (Event α)} {a : Nat}
    (hdue : ∀ k' ≤ k, Due vis h' i k' ↔ Due vis h i k') (hfirst : FirstDue vis h i a k) :
    FirstDue vis h' i a k := by
  obtain ⟨hle, hk, hmin⟩ := hfirst
  refine ⟨hle, (hdue k le_rfl).mpr hk, fun k' hk' hlt hdue' => ?_⟩
  exact hmin k' hk' hlt ((hdue k' (by omega)).mp hdue')

theorem FirstDue.unique {h : List (Event α)} {a k' : Nat} (hk : FirstDue vis h i a k)
    (hk' : FirstDue vis h i a k') : k = k' := by
  rcases Nat.lt_trichotomy k k' with hlt | heq | hlt
  · exact absurd hk.2.1 (hk'.2.2 k hk.1 hlt)
  · exact heq
  · exact absurd hk'.2.1 (hk.2.2 k' hk'.1 hlt)

theorem Timed.accepted {h : List (Event α)} (ht : Timed vis h) (x : α) :
    Timed vis (h ++ [.accepted x]) := by
  have hcases : ∀ i y a, (acceptedAt (h ++ [.accepted x]))[i]? = some (y, a) →
      (i < (acceptedAt h).length ∧ (acceptedAt h)[i]? = some (y, a)) ∨
        (i = (acceptedAt h).length ∧ a = (activations h).length) := by
    intro i y a hget
    rw [acceptedAt_accepted] at hget
    rcases Nat.lt_or_ge i (acceptedAt h).length with hlt | hge
    · exact .inl ⟨hlt, by rwa [getElem?_append_left hlt] at hget⟩
    · rw [getElem?_append_right hge, getElem?_singleton] at hget
      split_ifs at hget with hi
      injection hget with hget
      injection hget with _ ha
      exact .inr ⟨by omega, ha.symm⟩
  refine ⟨?_, ?_, ?_⟩
  · intro i y a hget
    rw [activations_accepted]
    rcases hcases i y a hget with ⟨_, hold⟩ | ⟨_, rfl⟩
    · exact ht.accepted_le i y a hold
    · exact le_rfl
  · intro i y k hget
    rw [takenAt_accepted] at hget
    obtain ⟨a, ha, hfirst⟩ := ht.taken i y k hget
    have hi : i < (acceptedAt h).length := (List.getElem?_eq_some_iff.mp ha).1
    refine ⟨a, ?_, hfirst.congr fun k' _ => due_accepted_iff h x hi⟩
    rw [acceptedAt_accepted, getElem?_append_left hi, ha]
  · intro i y a hi hget k hk hdue
    rw [takenAt_accepted] at hi
    rcases hcases i y a hget with ⟨hlt, hold⟩ | ⟨_, rfl⟩
    · exact ht.pending i y a hi hold k hk ((due_accepted_iff h x hlt).mp hdue)
    · -- nothing is due at an activation that has not happened
      have := hdue.lt_length
      rw [activations_accepted] at this
      omega

theorem Timed.refused {h : List (Event α)} (ht : Timed vis h) (x : α) :
    Timed vis (h ++ [.refused x]) := by
  obtain ⟨hact, hacc, htaken⟩ := offer_refused h x
  have hdue : ∀ i k, Due vis (h ++ [.refused x]) i k ↔ Due vis h i k := by
    intro i k
    unfold Due
    rw [hact, hacc]
  refine ⟨?_, ?_, ?_⟩
  · rw [hact, hacc]
    exact ht.accepted_le
  · intro i y k hget
    rw [htaken] at hget
    obtain ⟨a, ha, hfirst⟩ := ht.taken i y k hget
    exact ⟨a, hacc ▸ ha, hfirst.congr fun k' _ => hdue i k'⟩
  · intro i y a hi hget k hk hd
    rw [htaken] at hi
    rw [hacc] at hget
    exact ht.pending i y a hi hget k hk ((hdue i k).mp hd)

/-- `takeWhile` reaches the elements up to which everything qualifies. -/
theorem lt_takeWhile_length_iff {p : α → Bool} {q : List α} {j : Nat} (hj : j < q.length) :
    j < (q.takeWhile p).length ↔ ∀ i ≤ j, ∀ x, q[i]? = some x → p x = true := by
  induction q generalizing j with
  | nil => simp at hj
  | cons y rest ih =>
    by_cases hy : p y = true
    · rw [takeWhile_cons, if_pos hy]
      cases j with
      | zero => simp [hy]
      | succ j =>
        rw [length_cons, Nat.add_lt_add_iff_right, ih (by simpa using hj)]
        constructor
        · intro hall i hi x hx
          cases i with
          | zero =>
            simp only [getElem?_cons_zero, Option.some.injEq] at hx
            rwa [← hx]
          | succ i => exact hall i (by omega) x (by simpa using hx)
        · intro hall i hi x hx
          exact hall (i + 1) (by omega) x (by simpa using hx)
    · rw [takeWhile_cons, if_neg hy]
      constructor
      · intro hlt
        simp at hlt
      · intro hall
        exact absurd (hall 0 (by omega) y rfl) hy

/-- The queue holds the accepted elements from the number of taken ones on. -/
theorem queue_getElem?_eq_some_iff {q : List α} {h : List (Event α)}
    (hsplit : (takenAt h).map Prod.fst ++ q = (acceptedAt h).map Prod.fst)
    (hi : (takenAt h).length ≤ i) {x : α} :
    q[i - (takenAt h).length]? = some x ↔ ∃ a, (acceptedAt h)[i]? = some (x, a) := by
  have hget : q[i - (takenAt h).length]? = ((acceptedAt h).map Prod.fst)[i]? := by
    rw [← hsplit, getElem?_append_right (by simpa using hi), length_map]
  rw [hget, getElem?_map, Option.map_eq_some_iff]
  constructor
  · rintro ⟨⟨y, a⟩, ha, rfl⟩
    exact ⟨a, ha⟩
  · rintro ⟨a, ha⟩
    exact ⟨(x, a), ha, rfl⟩

section Activate

variable
    (hmono : ∀ s t x, s ≤ t → vis s x = true → vis t x = true)
    {q : List α} {h : List (Event α)} (ht : Timed vis h)
    (hsplit : (takenAt h).map Prod.fst ++ q = (acceptedAt h).map Prod.fst)
    {t : Nat} (hle : ∀ s ∈ activations h, s ≤ t)
include hmono ht hsplit hle

/-- A drain takes the pending elements up to which everything accepted is
visible. -/
theorem Timed.lt_drain_iff {i : Nat} (hi : (takenAt h).length ≤ i)
    (hlen : i < (acceptedAt h).length) :
    i - (takenAt h).length < (q.takeWhile (vis t)).length ↔
      ∀ j ≤ i, ∀ x a, (acceptedAt h)[j]? = some (x, a) → vis t x = true := by
  have hq : i - (takenAt h).length < q.length := by
    have hsum := congrArg length hsplit
    simp only [length_append, length_map] at hsum
    omega
  rw [lt_takeWhile_length_iff hq]
  constructor
  · intro hall j hj x a hget
    rcases Nat.lt_or_ge j (takenAt h).length with hjt | hjt
    · -- what was taken before is still visible
      obtain ⟨_, _, _, ⟨s, hs, hvis⟩, _⟩ :=
        ht.taken j _ _ (getElem?_eq_getElem hjt)
      exact hmono s t x (hle s (mem_of_getElem? hs)) (hvis j le_rfl x a hget)
    · exact hall (j - (takenAt h).length) (by omega) x
        ((queue_getElem?_eq_some_iff hsplit hjt).mpr ⟨a, hget⟩)
  · intro hall j hj x hget
    rw [← Nat.add_sub_cancel_left (m := j)] at hget
    obtain ⟨a, ha⟩ := (queue_getElem?_eq_some_iff hsplit (Nat.le_add_right _ _)).mp hget
    exact hall _ (by omega) x a ha

/-- What is taken at an activation is due then for the first time, and what
stays behind is not due. -/
theorem Timed.activate : Timed vis (h ++ .activated t :: (q.takeWhile (vis t)).map .took) := by
  refine ⟨?_, ?_, ?_⟩
  · intro i x a hget
    rw [acceptedAt_activate] at hget
    rw [activations_activate, length_append]
    have := ht.accepted_le i x a hget
    omega
  · intro i x k hget
    rw [takenAt_activate] at hget
    rw [acceptedAt_activate]
    rcases Nat.lt_or_ge i (takenAt h).length with hi | hi
    · rw [getElem?_append_left hi] at hget
      obtain ⟨a, ha, hfirst⟩ := ht.taken i x k hget
      refine ⟨a, ha, hfirst.congr fun k' hk' => due_activate_iff h t _ ?_⟩
      exact lt_of_le_of_lt hk' hfirst.2.1.lt_length
    · -- taken now: not due before, and due at this activation
      rw [getElem?_append_right hi, getElem?_map, Option.map_eq_some_iff] at hget
      obtain ⟨y, hy, heq⟩ := hget
      injection heq with hyx hk
      subst hyx hk
      have hlt := (List.getElem?_eq_some_iff.mp hy).1
      have hq : q[i - (takenAt h).length]? = some y := by
        rw [prefix_iff_getElem?.mp (List.takeWhile_prefix (vis t)) _ hlt,
          ← getElem?_eq_getElem hlt, hy]
      obtain ⟨a, ha⟩ := (queue_getElem?_eq_some_iff hsplit hi).mp hq
      refine ⟨a, ha, ht.accepted_le i y a ha, ?_, ?_⟩
      · rw [due_activate_last]
        exact (ht.lt_drain_iff hmono hsplit hle hi
          (List.getElem?_eq_some_iff.mp ha).1).mp hlt
      · intro k' hk' hlt' hdue
        rw [due_activate_iff h t _ hlt'] at hdue
        exact ht.pending i y a hi ha k' hk' hdue
  · intro i x a hi hget k hk hdue
    rw [takenAt_activate, length_append, length_map] at hi
    rw [acceptedAt_activate] at hget
    rcases Nat.lt_or_ge k (activations h).length with hkn | hkn
    · rw [due_activate_iff h t _ hkn] at hdue
      exact ht.pending i x a (by omega) hget k hk hdue
    · have hkeq : k = (activations h).length := by
        have := hdue.lt_length
        rw [activations_activate, length_append, length_singleton] at this
        omega
      subst hkeq
      rw [due_activate_last, ← ht.lt_drain_iff hmono hsplit hle (by omega)
        (List.getElem?_eq_some_iff.mp hget).1] at hdue
      omega

end Activate

theorem Run.timed (hmono : ∀ s t x, s ≤ t → vis s x = true → vis t x = true) {q : List α}
    {h : List (Event α)} (hrun : Run vis capacity q h) : Timed vis h := by
  induction hrun with
  | start =>
    exact ⟨by simp [acceptedAt, mark], by simp [takenAt, mark], by simp [acceptedAt, mark]⟩
  | @offer q h x hrun ih =>
    cases full capacity q with
    | true => exact ih.refused x
    | false => exact ih.accepted x
  | activate hrun hle ih => exact ih.activate hmono hrun.conservation hle

/-- Every accepted element is taken at the activation at which it is first
due, and only then. -/
theorem Run.takenAt_eq_some_iff (hmono : ∀ s t x, s ≤ t → vis s x = true → vis t x = true)
    {q : List α} {h : List (Event α)} (hrun : Run vis capacity q h) {x : α} :
    (takenAt h)[i]? = some (x, k) ↔
      ∃ a, (acceptedAt h)[i]? = some (x, a) ∧ FirstDue vis h i a k := by
  have ht := hrun.timed hmono
  constructor
  · exact ht.taken i x k
  · rintro ⟨a, ha, hfirst⟩
    rcases Nat.lt_or_ge i (takenAt h).length with hi | hi
    · obtain ⟨⟨y, k'⟩, hget⟩ : ∃ p, (takenAt h)[i]? = some p :=
        ⟨_, getElem?_eq_getElem hi⟩
      obtain ⟨b, hb, hfirst'⟩ := ht.taken i y k' hget
      rw [ha] at hb
      injection hb with hb
      injection hb with hxy hab
      subst hxy hab
      rw [hget, hfirst.unique hfirst']
    · exact absurd hfirst.2.1 (ht.pending i x a hi ha k hfirst.1)

end Instants

end SilFormal.Fifo
