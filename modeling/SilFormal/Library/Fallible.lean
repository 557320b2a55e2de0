import Mathlib

/-!
# Loops that an error leaves

Computations in `Except`: their inversion, requirements, and loops that stop at
the first error.  `visit` is a loop over the entries of a table in which every
iteration touches its own entry only, so its result can be read off entry by
entry.
-/

namespace SilFormal.Fallible

open List

universe u v

variable {ε : Type u} {α β σ ι : Type v} {x : Except ε α} {f : α → Except ε β} {condition : Prop}
  {message : ε} {l : List α}

theorem bind_eq_ok {b : β} : x >>= f = .ok b ↔ ∃ a, x = .ok a ∧ f a = .ok b := by
  cases x with
  | error e =>
    constructor
    · intro h
      cases h
    · rintro ⟨a, ha, _⟩
      cases ha
  | ok a =>
    constructor
    · intro h
      exact ⟨a, rfl, h⟩
    · rintro ⟨a', ha, h⟩
      cases ha
      exact h

theorem bind_eq_error {e : ε} :
    x >>= f = .error e ↔ x = .error e ∨ ∃ a, x = .ok a ∧ f a = .error e := by
  cases x with
  | error e' => simp [bind, Except.bind]
  | ok a => simp [bind, Except.bind]

theorem map_eq_ok {f : α → β} {b : β} : x.map f = .ok b ↔ ∃ a, x = .ok a ∧ f a = b := by
  cases x with
  | error e => simp [Except.map]
  | ok a => simp [Except.map]

/-- Whether a computation succeeds. -/
def Succeeds (x : Except ε α) : Prop :=
  ∃ a, x = .ok a

/-- A requirement, with the error of its violation. -/
def require (condition : Prop) [Decidable condition] (message : ε) : Except ε PUnit :=
  if condition then .ok ⟨⟩ else .error message

theorem require_eq_ok [Decidable condition] {x : PUnit} :
    require condition message = .ok x ↔ condition := by
  by_cases h : condition
  · simp [require]
  · simp [require]

theorem require_bind_eq_ok [Decidable condition] {f : PUnit → Except ε β} {b : β} :
    require condition message >>= f = .ok b ↔ condition ∧ f ⟨⟩ = .ok b := by
  rw [bind_eq_ok]
  constructor
  · rintro ⟨_, hrequire, hf⟩
    exact ⟨require_eq_ok.mp hrequire, hf⟩
  · rintro ⟨hcondition, hf⟩
    exact ⟨⟨⟩, require_eq_ok.mpr hcondition, hf⟩

theorem require_bind_eq_error [Decidable condition] {e : ε} {f : PUnit → Except ε β} :
    require condition message >>= f = .error e ↔
      (¬ condition ∧ e = message) ∨ (condition ∧ f ⟨⟩ = .error e) := by
  by_cases h : condition
  · simp [require, h, bind, Except.bind]
  · simp [require, h, bind, Except.bind, eq_comm]

/-- What every iteration preserves, a loop without an error preserves. -/
theorem foldlM_invariant {f : σ → ι → Except ε σ} {I : σ → Prop} {l : List ι}
    (hstep : ∀ s i s', i ∈ l → I s → f s i = .ok s' → I s') {s s' : σ} (h : l.foldlM f s = .ok s')
    (hs : I s) : I s' := by
  induction l generalizing s with
  | nil =>
    cases h
    exact hs
  | cons i rest ih =>
    obtain ⟨s₁, hfirst, hrest⟩ := bind_eq_ok.mp h
    exact ih (fun a j a' hj => hstep a j a' (mem_cons_of_mem _ hj)) hrest
      (hstep s i s₁ (by simp) hs hfirst)

/-- The error of a loop is the error of one of its iterations. -/
theorem exists_of_mapM_eq_error {e : ε} (h : l.mapM f = .error e) : ∃ a ∈ l, f a = .error e := by
  induction l with
  | nil => cases h
  | cons a l ih =>
    rw [mapM_cons, bind_eq_error] at h
    rcases h with ha | ⟨b, _, h⟩
    · exact ⟨a, mem_cons_self, ha⟩
    · rcases bind_eq_error.mp h with hrest | ⟨_, _, h⟩
      · obtain ⟨x, hx, he⟩ := ih hrest
        exact ⟨x, mem_cons_of_mem _ hx, he⟩
      · cases h

/-- A loop of computations succeeds when each of them does. -/
theorem succeeds_mapM_iff : Succeeds (l.mapM f) ↔ ∀ a ∈ l, Succeeds (f a) := by
  induction l with
  | nil => exact ⟨fun _ => by simp, fun _ => ⟨[], rfl⟩⟩
  | cons a rest ih =>
    rw [forall_mem_cons, ← ih, mapM_cons]
    constructor
    · rintro ⟨out, hout⟩
      obtain ⟨b, hb, hrest⟩ := bind_eq_ok.mp hout
      obtain ⟨bs, hbs, _⟩ := bind_eq_ok.mp hrest
      exact ⟨⟨b, hb⟩, bs, hbs⟩
    · rintro ⟨⟨b, hb⟩, bs, hbs⟩
      exact ⟨b :: bs, bind_eq_ok.mpr ⟨b, hb, bind_eq_ok.mpr ⟨bs, hbs, rfl⟩⟩⟩

/-- A loop over an image, when each of its computations follows one of another
loop. -/
theorem mapM_map_eq_ok {α' β' : Type v} {f' : α' → Except ε β'} {g : α → α'} {h : β → β'}
    {out : List β} (hout : l.mapM f = .ok out)
    (hstep : ∀ a ∈ l, ∀ b, f a = .ok b → f' (g a) = .ok (h b)) :
    (l.map g).mapM f' = .ok (out.map h) := by
  induction l generalizing out with
  | nil =>
    cases hout
    rfl
  | cons a rest ih =>
    rw [mapM_cons, bind_eq_ok] at hout
    obtain ⟨b, hb, hout⟩ := hout
    rw [bind_eq_ok] at hout
    obtain ⟨bs, hbs, hout⟩ := hout
    cases hout
    have hrest := ih hbs fun a' ha' => hstep a' (mem_cons_of_mem _ ha')
    rw [map_cons, mapM_cons, hstep a (by simp) b hb, hrest]
    rfl

/-! ## Loops over the entries of a table -/

section Visit

variable [DecidableEq ι]

/-- The loop over the entries of a table at given places. -/
def visit (f : ι → α → Except ε α) : List ι → (ι → α) → Except ε (ι → α)
  | [], s => .ok s
  | i :: rest, s => f i (s i) >>= fun a => visit f rest (Function.update s i a)

/-- Every place is visited once, and the others are left alone. -/
theorem visit_eq_ok_iff {f : ι → α → Except ε α} {l : List ι} (hnodup : l.Nodup) {s s' : ι → α} :
    visit f l s = .ok s' ↔ (∀ i ∈ l, f i (s i) = .ok (s' i)) ∧ ∀ i, i ∉ l → s' i = s i := by
  induction l generalizing s with
  | nil =>
    constructor
    · intro h
      cases h
      exact ⟨by simp, fun _ _ => rfl⟩
    · rintro ⟨_, hsame⟩
      rw [visit, funext fun i => hsame i (by simp)]
  | cons j rest ih =>
    obtain ⟨hj, hrest⟩ := nodup_cons.mp hnodup
    rw [visit, bind_eq_ok]
    constructor
    · rintro ⟨a, ha, h⟩
      obtain ⟨hvisited, hsame⟩ := (ih hrest).mp h
      have hfirst : s' j = a := by
        rw [hsame j hj, Function.update_self]
      refine ⟨fun i hi => ?_, fun i hi => ?_⟩
      · rcases mem_cons.mp hi with rfl | hi
        · rw [hfirst]
          exact ha
        · have hne : i ≠ j := fun heq => hj (heq ▸ hi)
          have hvisit := hvisited i hi
          rwa [Function.update_of_ne hne] at hvisit
      · rw [mem_cons, not_or] at hi
        rw [hsame i hi.2, Function.update_of_ne hi.1]
    · rintro ⟨hvisited, hsame⟩
      refine ⟨s' j, hvisited j (by simp), (ih hrest).mpr ⟨fun i hi => ?_, fun i hi => ?_⟩⟩
      · have hne : i ≠ j := fun heq => hj (heq ▸ hi)
        rw [Function.update_of_ne hne]
        exact hvisited i (mem_cons_of_mem _ hi)
      · by_cases hij : i = j
        · rw [hij, Function.update_self]
        · rw [Function.update_of_ne hij]
          exact hsame i (by simp [hij, hi])

end Visit

end SilFormal.Fallible
