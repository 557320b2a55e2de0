import SilFormal.Library.Fallible

/-!
# Sequences of commuting steps

A step may be impossible in a state, so steps are relations.  Two steps commute
when whatever they do one after the other they also do the other way round.
Sequences made of blocks do the same in every order of the blocks when the
steps of different blocks commute.
-/

namespace SilFormal.Commuting

open List

universe u v w

variable {κ : Type u} {ι : Type v} {σ τ : Type w}

/-- Steps one after another. -/
inductive Along (R : ι → σ → σ → Prop) : List ι → σ → σ → Prop
  | nil (s : σ) : Along R [] s s
  | cons {i : ι} {rest : List ι} {s s₁ s₂ : σ} (hfirst : R i s s₁)
      (hrest : Along R rest s₁ s₂) : Along R (i :: rest) s s₂

/-- What two steps do one after the other, they do the other way round. -/
def Commutes (R : ι → σ → σ → Prop) (i j : ι) : Prop :=
  ∀ s s₁ s₂, R i s s₁ → R j s₁ s₂ → ∃ s₁', R j s s₁' ∧ R i s₁' s₂

section Along

variable {R : ι → σ → σ → Prop} {s s' : σ} {l : List ι}

theorem along_nil_iff : Along R [] s s' ↔ s' = s := by
  constructor
  · rintro ⟨⟩
    rfl
  · rintro rfl
    exact .nil _

theorem along_cons_iff {i : ι} {rest : List ι} :
    Along R (i :: rest) s s' ↔ ∃ s₁, R i s s₁ ∧ Along R rest s₁ s' := by
  constructor
  · rintro ⟨⟩
    exact ⟨_, by assumption, by assumption⟩
  · rintro ⟨_, hfirst, hrest⟩
    exact .cons hfirst hrest

theorem along_append_iff {l' : List ι} :
    Along R (l ++ l') s s' ↔ ∃ s₁, Along R l s s₁ ∧ Along R l' s₁ s' := by
  induction l generalizing s with
  | nil => simp [along_nil_iff]
  | cons i rest ih =>
    simp only [cons_append, along_cons_iff, ih]
    constructor
    · rintro ⟨s₁, hfirst, s₂, hrest, hl'⟩
      exact ⟨s₂, ⟨s₁, hfirst, hrest⟩, hl'⟩
    · rintro ⟨s₂, ⟨s₁, hfirst, hrest⟩, hl'⟩
      exact ⟨s₁, hfirst, s₂, hrest, hl'⟩

/-- A loop without an error takes its steps one after another. -/
theorem along_iff_foldlM {ε : Type u} {f : σ → ι → Except ε σ} :
    Along (fun i s s' => f s i = .ok s') l s s' ↔ l.foldlM f s = .ok s' := by
  induction l generalizing s with
  | nil => simp [along_nil_iff, pure, Except.pure, eq_comm]
  | cons i rest ih => simp only [along_cons_iff, foldlM_cons, Fallible.bind_eq_ok, ih]

/-- Steps that are simulated one by one are simulated one after another. -/
theorem Along.map {R' : κ → τ → τ → Prop} {g : ι → κ} {p : σ → τ → Prop}
    (hstep : ∀ i ∈ l, ∀ s s' t, p s t → R i s s' → ∃ t', R' (g i) t t' ∧ p s' t') {t : τ}
    (h : Along R l s s') (hp : p s t) : ∃ t', Along R' (l.map g) t t' ∧ p s' t' := by
  induction h generalizing t with
  | nil s => exact ⟨t, .nil t, hp⟩
  | cons hfirst hrest ih =>
    obtain ⟨t₁, hfirst', hp₁⟩ := hstep _ (by simp) _ _ _ hp hfirst
    obtain ⟨t', hrest', hp'⟩ := ih (fun j hj => hstep j (mem_cons_of_mem _ hj)) hp₁
    exact ⟨t', .cons hfirst' hrest', hp'⟩

end Along

section Commutes

variable {R : ι → σ → σ → Prop} {l : List ι} {s : σ}

/-- A step commutes with a sequence of steps that it commutes with. -/
theorem Along.pull {j : ι} (hcommutes : ∀ i ∈ l, Commutes R i j) {s₁ s₂ : σ} (h : Along R l s s₁)
    (hj : R j s₁ s₂) : Along R (j :: l) s s₂ := by
  induction h with
  | nil s => exact .cons hj (.nil _)
  | cons hfirst _ ih =>
    obtain ⟨s', hj', hrest⟩ :=
      along_cons_iff.mp (ih (fun i hi => hcommutes i (mem_cons_of_mem _ hi)) hj)
    obtain ⟨t, hj'', hfirst'⟩ := hcommutes _ (by simp) _ _ _ hfirst hj'
    exact .cons hj'' (.cons hfirst' hrest)

/-- Two sequences commute when their steps do. -/
theorem Along.swap {l' : List ι} (hcommutes : ∀ i ∈ l, ∀ j ∈ l', Commutes R i j) {s' : σ}
    (h : Along R (l ++ l') s s') : Along R (l' ++ l) s s' := by
  obtain ⟨s₁, hl, hl'⟩ := along_append_iff.mp h
  clear h
  induction hl' generalizing s with
  | nil _ => exact hl
  | cons hfirst _ ih =>
    -- The first step of the second sequence moves to the front.
    obtain ⟨t, hfirst', hl''⟩ :=
      along_cons_iff.mp (hl.pull (fun i hi => hcommutes i hi _ (by simp)) hfirst)
    exact .cons hfirst' (ih (fun i hi j hj => hcommutes i hi j (mem_cons_of_mem _ hj)) hl'')

/-- Blocks whose steps commute may be taken in any order. -/
theorem Along.perm {block : κ → List ι}
    (hcommutes : ∀ k k', k ≠ k' → ∀ i ∈ block k, ∀ j ∈ block k', Commutes R i j) {l l' : List κ}
    (hperm : l.Perm l') {s' : σ} (h : Along R (l.flatMap block) s s') :
    Along R (l'.flatMap block) s s' := by
  induction hperm generalizing s with
  | nil => exact h
  | cons k _ ih =>
    rw [flatMap_cons, along_append_iff] at h ⊢
    obtain ⟨s₁, hblock, hrest⟩ := h
    exact ⟨s₁, hblock, ih hrest⟩
  | swap k k' rest =>
    simp only [flatMap_cons, ← append_assoc] at h ⊢
    rw [along_append_iff] at h ⊢
    obtain ⟨s₁, hblocks, hrest⟩ := h
    by_cases hk : k' = k
    · subst hk
      exact ⟨s₁, hblocks, hrest⟩
    · exact ⟨s₁, hblocks.swap (hcommutes k' k hk), hrest⟩
  | trans _ _ ih₁ ih₂ => exact ih₂ (ih₁ h)

/-- Commuting steps may be taken in any order. -/
theorem Along.perm_steps (hcommutes : ∀ i j, i ≠ j → Commutes R i j) {l' : List ι}
    (hperm : l.Perm l') {s' : σ} (h : Along R l s s') : Along R l' s s' := by
  have hsingle : ∀ l : List ι, l.flatMap (fun i => [i]) = l := flatMap_singleton'
  rw [← hsingle l] at h
  rw [← hsingle l']
  refine Along.perm (fun k k' hk i hi j hj => ?_) hperm h
  rw [mem_singleton.mp hi, mem_singleton.mp hj]
  exact hcommutes k k' hk

end Commutes

end SilFormal.Commuting
