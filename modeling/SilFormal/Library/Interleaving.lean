import Mathlib

/-!
# Sequences of actions with separate views

Actions belong to owners, and every index has a view of the state: an
equivalence of states.  An action of another owner does not change a view, and
what an action does to the view of its own owner is determined by that view.
What a sequence of actions does to a view is then what the subsequence of the
owner does to it, in whatever order the owners are interleaved.
-/

namespace SilFormal.Interleaving

open List

universe u v w

variable {S : Type u} {K : Type v} {I : Type w} [DecidableEq I] {l : List K}

/-- Actions one after another; the first failing one fails the sequence. -/
def runAll (act : K → S → Option S) : List K → S → Option S
  | [], s => some s
  | k :: rest, s => (act k s).bind (runAll act rest)

/-- The actions of one owner. -/
def only (owner : K → I) (i : I) (l : List K) : List K :=
  l.filter fun k => owner k = i

/-- A system of actions with separate views, over the states of an
invariant.  `fair` says of which actions this is known. -/
structure Separate (act : K → S → Option S) (owner : K → I) (view : I → S → S → Prop)
    (valid : S → Prop) (fair : K → Prop) : Prop where
  refl : ∀ i s, view i s s
  symm : ∀ i s t, view i s t → view i t s
  trans : ∀ i s t u, view i s t → view i t u → view i s u
  keep : ∀ k s t, valid s → act k s = some t → valid t
  frame : ∀ k s t i, valid s → act k s = some t → owner k ≠ i → view i s t
  determined : ∀ k s s' t, fair k → valid s → valid s' → view (owner k) s s' →
    act k s = some t → ∃ t', act k s' = some t' ∧ view (owner k) t t'

section RunAll

variable {act : K → S → Option S}

theorem runAll_cons_eq_some_iff {k : K} {rest : List K} {s t : S} :
    runAll act (k :: rest) s = some t ↔ ∃ u, act k s = some u ∧ runAll act rest u = some t := by
  simp [runAll, Option.bind_eq_some_iff]

end RunAll

section Views

variable
    {act : K → S → Option S} {owner : K → I} {view : I → S → S → Prop}
    {valid : S → Prop} {fair : K → Prop} {l l' : List K} {s t s' : S}

omit [DecidableEq I] in
theorem Separate.runAll_valid (h : Separate act owner view valid fair) (hs : valid s)
    (hrun : runAll act l s = some t) : valid t := by
  induction l generalizing s with
  | nil =>
    injection hrun with hrun
    exact hrun ▸ hs
  | cons k rest ih =>
    obtain ⟨u, hu, hrest⟩ := runAll_cons_eq_some_iff.mp hrun
    exact ih (h.keep k s u hs hu) hrest

/-- On a view a sequence acts as the subsequence of its owner. -/
theorem Separate.runAll_only (h : Separate act owner view valid fair) (i : I)
    (hfair : ∀ k ∈ l, fair k) (hs : valid s) (hs' : valid s') (hview : view i s s')
    (hrun : runAll act l s = some t) :
    ∃ t', runAll act (only owner i l) s' = some t' ∧ view i t t' := by
  induction l generalizing s s' with
  | nil =>
    injection hrun with hrun
    exact ⟨s', rfl, hrun ▸ hview⟩
  | cons k rest ih =>
    obtain ⟨u, hu, hrest⟩ := runAll_cons_eq_some_iff.mp hrun
    have hvalid := h.keep k s u hs hu
    have hfair' : ∀ k ∈ rest, fair k := fun x hx => hfair x (mem_cons_of_mem _ hx)
    by_cases howner : owner k = i
    · subst howner
      obtain ⟨u', hu', huu'⟩ :=
        h.determined k s s' u (hfair k (by simp)) hs hs' hview hu
      obtain ⟨t', ht', htt'⟩ := ih hfair' hvalid (h.keep k s' u' hs' hu') huu' hrest
      refine ⟨t', ?_, htt'⟩
      have honly : only owner (owner k) (k :: rest) = k :: only owner (owner k) rest := by
        simp [only]
      rw [honly]
      exact runAll_cons_eq_some_iff.mpr ⟨u', hu', ht'⟩
    · have honly : only owner i (k :: rest) = only owner i rest := by
        simp [only, howner]
      rw [honly]
      have hframe := h.symm i s u (h.frame k s u i hs hu howner)
      exact ih hfair' hvalid hs' (h.trans i u s s' hframe hview) hrest

/-- A sequence succeeds when the subsequence of every owner does. -/
theorem Separate.exists_runAll (h : Separate act owner view valid fair) (hfair : ∀ k ∈ l, fair k)
    (hs : valid s) (honly : ∀ i, ∃ t, runAll act (only owner i l) s = some t) :
    ∃ t, runAll act l s = some t := by
  induction l generalizing s with
  | nil => exact ⟨s, rfl⟩
  | cons k rest ih =>
    have hhead : only owner (owner k) (k :: rest) = k :: only owner (owner k) rest := by
      simp [only]
    obtain ⟨t, ht⟩ := honly (owner k)
    rw [hhead] at ht
    obtain ⟨u, hu, hrest⟩ := runAll_cons_eq_some_iff.mp ht
    have hvalid := h.keep k s u hs hu
    obtain ⟨t', ht'⟩ : ∃ t, runAll act rest u = some t := by
      have hfair' : ∀ k ∈ rest, fair k := fun x hx => hfair x (mem_cons_of_mem _ hx)
      refine ih hfair' hvalid fun i => ?_
      by_cases howner : owner k = i
      · subst howner
        exact ⟨t, hrest⟩
      · -- the first action does not concern this owner
        have hskip : only owner i (k :: rest) = only owner i rest := by
          simp [only, howner]
        obtain ⟨v, hv⟩ := honly i
        rw [hskip] at hv
        have hfair_only : ∀ k ∈ only owner i rest, fair k := fun x hx =>
          hfair' x (mem_of_mem_filter hx)
        obtain ⟨v', hv', _⟩ := h.runAll_only i hfair_only hs hvalid
          (h.frame k s u i hs hu howner) hv
        refine ⟨v', ?_⟩
        simpa [only] using hv'
    exact ⟨t', runAll_cons_eq_some_iff.mpr ⟨u, hu, ht'⟩⟩

/-- Two sequences with the same subsequence for an owner do the same to its view. -/
theorem Separate.view_of_only_eq (h : Separate act owner view valid fair) {i : I}
    (hfair : ∀ k ∈ l, fair k) (hfair' : ∀ k ∈ l', fair k) (honly : only owner i l = only owner i l')
    {t' : S} (hs : valid s) (hs' : valid s') (hview : view i s s') (hrun : runAll act l s = some t)
    (hrun' : runAll act l' s' = some t') : view i t t' := by
  obtain ⟨u, hu, htu⟩ := h.runAll_only i hfair hs hs' hview hrun
  obtain ⟨u', hu', htu'⟩ := h.runAll_only i hfair' hs' hs' (h.refl i s') hrun'
  rw [honly, hu'] at hu
  injection hu with hu
  subst hu
  exact h.trans i t u' t' htu (h.symm i t' u' htu')

/-- Two sequences with the same subsequences for some owners, where the second
has actions of these owners only, do the same to the views of these owners. -/
theorem Separate.runAll_of_only_eq_on (h : Separate act owner view valid fair) (J : I → Prop)
    (hfair : ∀ k ∈ l, fair k) (hfair' : ∀ k ∈ l', fair k)
    (honly : ∀ i, J i → only owner i l = only owner i l')
    (hrest : ∀ i, ¬ J i → only owner i l' = []) (hs : valid s) (hs' : valid s')
    (hview : ∀ i, J i → view i s s') (hrun : runAll act l s = some t) :
    ∃ t', runAll act l' s' = some t' ∧ ∀ i, J i → view i t t' := by
  obtain ⟨t', ht'⟩ : ∃ t', runAll act l' s' = some t' := by
    refine h.exists_runAll hfair' hs' fun i => ?_
    by_cases hi : J i
    · obtain ⟨u, hu, _⟩ := h.runAll_only i hfair hs hs' (hview i hi) hrun
      exact ⟨u, honly i hi ▸ hu⟩
    · exact ⟨s', by rw [hrest i hi]; rfl⟩
  exact ⟨t', ht', fun i hi =>
    h.view_of_only_eq hfair hfair' (honly i hi) hs hs' (hview i hi) hrun ht'⟩

/-- A sequence without actions of an owner leaves its view alone. -/
theorem Separate.runAll_frame (h : Separate act owner view valid fair) {i : I}
    (hfair : ∀ k ∈ l, fair k) (honly : only owner i l = []) (hs : valid s)
    (hrun : runAll act l s = some t) : view i s t := by
  obtain ⟨u, hu, hview⟩ := h.runAll_only i hfair hs hs (h.refl i s) hrun
  rw [honly] at hu
  injection hu with hu
  exact h.symm i t s (hu ▸ hview)

/-- Two sequences with the same subsequence for every owner do the same to
every view. -/
theorem Separate.runAll_of_only_eq (h : Separate act owner view valid fair)
    (hfair : ∀ k ∈ l, fair k) (hfair' : ∀ k ∈ l', fair k)
    (honly : ∀ i, only owner i l = only owner i l') (hs : valid s) (hs' : valid s')
    (hview : ∀ i, view i s s') (hrun : runAll act l s = some t) :
    ∃ t', runAll act l' s' = some t' ∧ ∀ i, view i t t' := by
  obtain ⟨t', ht', hviews⟩ := h.runAll_of_only_eq_on (fun _ => True) hfair hfair'
    (fun i _ => honly i) (fun i hi => absurd trivial hi) hs hs' (fun i _ => hview i) hrun
  exact ⟨t', ht', fun i => hviews i trivial⟩

end Views

theorem only_length_le_one {owner : K → I} (hnodup : (l.map owner).Nodup) (i : I) :
    (only owner i l).length ≤ 1 := by
  have hmap : ((only owner i l).map owner).Nodup :=
    hnodup.sublist (filter_sublist.map _)
  have hall : ∀ x ∈ (only owner i l).map owner, x = i := by
    intro x hx
    obtain ⟨k, hk, rfl⟩ := mem_map.mp hx
    simpa [only] using (mem_filter.mp hk).2
  rw [eq_replicate_of_mem hall] at hmap
  simpa using nodup_replicate.mp hmap

/-- With at most one action for each owner, permutations have the same
subsequences. -/
theorem only_eq_of_perm {owner : K → I} {l' : List K} (hperm : l.Perm l')
    (hnodup : (l.map owner).Nodup) (i : I) : only owner i l = only owner i l' := by
  have hsub : (only owner i l).Perm (only owner i l') := hperm.filter _
  match hl : only owner i l, only_length_le_one hnodup i with
  | [], _ =>
    rw [hl] at hsub
    exact (nil_perm.mp hsub).symm
  | [k], _ =>
    rw [hl] at hsub
    exact (singleton_perm.mp hsub)

/-- With at most one action for each owner, a part of a sequence has for every
owner nothing or all that the sequence has. -/
theorem only_of_subset {owner : K → I} {l' : List K} (hsub : l ⊆ l') (hnodup : (l.map owner).Nodup)
    (hnodup' : (l'.map owner).Nodup) (i : I) :
    only owner i l = [] ∨ only owner i l = only owner i l' := by
  match hl : only owner i l, only_length_le_one hnodup i with
  | [], _ => exact .inl rfl
  | [k], _ =>
    have hk : k ∈ only owner i l := hl ▸ mem_singleton_self k
    obtain ⟨hmem, howner⟩ := mem_filter.mp hk
    have hk' : k ∈ only owner i l' := mem_filter.mpr ⟨hsub hmem, howner⟩
    match hl' : only owner i l', only_length_le_one hnodup' i with
    | [], _ =>
      rw [hl'] at hk'
      cases hk'
    | [k'], _ =>
      rw [hl'] at hk'
      exact .inr (congrArg (fun x => [x]) (mem_singleton.mp hk'))

end SilFormal.Interleaving
