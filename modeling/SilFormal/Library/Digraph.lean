import Mathlib

/-!
# Walks in a labelled directed graph

A graph is the list of its edges, parallel edges and self-loops included.
Vertices that are settled one by one, each after everything it leads to, lie on
no closed walk.  A finite part of a graph without closed walks has a vertex
that nothing in the part leads to.
-/

namespace SilFormal.Digraph

universe u v

variable {V : Type u} {C : Type v} {edges : List (V × V × C)}

/-- A walk: the vertices that it leaves, each with the label of the edge that it
takes, and where it ends. -/
inductive Walk (edges : List (V × V × C)) : V → List (V × C) → V → Prop
  | nil (v : V) : Walk edges v [] v
  | cons {u v w : V} {c : C} {rest : List (V × C)} (hedge : (u, v, c) ∈ edges)
      (hrest : Walk edges v rest w) : Walk edges u ((u, c) :: rest) w

/-- No walk leads back to its start. -/
def Acyclic (edges : List (V × V × C)) : Prop :=
  ∀ v loop, Walk edges v loop v → loop = []

namespace Walk

theorem append {a b d : V} {p q : List (V × C)} (hp : Walk edges a p b) (hq : Walk edges b q d) :
    Walk edges a (p ++ q) d := by
  induction hp with
  | nil v => exact hq
  | cons hedge _ ih => exact .cons hedge (ih hq)

theorem single {a b : V} {c : C} (h : (a, b, c) ∈ edges) : Walk edges a [(a, c)] b :=
  .cons h (.nil b)

/-- A walk that is cut passes through one vertex. -/
theorem of_append {a d : V} {p q : List (V × C)} (h : Walk edges a (p ++ q) d) :
    ∃ b, Walk edges a p b ∧ Walk edges b q d := by
  induction p generalizing a with
  | nil => exact ⟨a, .nil a, h⟩
  | cons step p ih =>
    cases h with
    | cons hedge hrest =>
      obtain ⟨b, hp, hq⟩ := ih hrest
      exact ⟨b, .cons hedge hp, hq⟩

/-- A walk starts at the first vertex that it leaves. -/
theorem head_eq {a d : V} {step : V × C} {rest : List (V × C)} (h : Walk edges a (step :: rest) d) :
    a = step.1 := by
  cases h with
  | cons _ _ => rfl

end Walk

/-! ## Settled vertices -/

/-- Vertices in an order in which everything a vertex leads to is behind it. -/
inductive Settled (edges : List (V × V × C)) : List V → Prop
  | nil : Settled edges []
  | cons {v : V} {rest : List V} (hnew : v ∉ rest) (hout : ∀ w c, (v, w, c) ∈ edges → w ∈ rest)
      (hrest : Settled edges rest) : Settled edges (v :: rest)

namespace Settled

/-- No walk leaves settled vertices. -/
theorem closed {settled : List V} (h : Settled edges settled) {a b : V} {p : List (V × C)}
    (ha : a ∈ settled) (hp : Walk edges a p b) : b ∈ settled := by
  induction hp with
  | nil v => exact ha
  | cons hedge _ ih =>
    refine ih ?_
    clear ih
    induction h with
    | nil => cases ha
    | cons hnew hout hrest ihsettled =>
      rcases List.mem_cons.mp ha with rfl | ha
      · exact List.mem_cons_of_mem _ (hout _ _ hedge)
      · exact List.mem_cons_of_mem _ (ihsettled ha)

/-- Settled vertices lie on no closed walk. -/
theorem loop_eq_nil {settled : List V} (h : Settled edges settled) {a : V} {p : List (V × C)}
    (ha : a ∈ settled) (hp : Walk edges a p a) : p = [] := by
  induction h with
  | nil => cases ha
  | cons hnew hout hrest ih =>
    rcases List.mem_cons.mp ha with rfl | ha
    · cases hp with
      | nil => rfl
      | cons hedge hback => exact absurd (hrest.closed (hout _ _ hedge) hback) hnew
    · exact ih ha

end Settled

/-! ## Sources -/

/-- One vertex leads to another. -/
def Leads (edges : List (V × V × C)) (a b : V) : Prop :=
  ∃ c, (a, b, c) ∈ edges

theorem exists_walk_of_transGen {part : List V} {a b : {v // v ∈ part}}
    (h : Relation.TransGen (fun x y => Leads edges x.1 y.1) a b) :
    ∃ p, p ≠ [] ∧ Walk edges a.1 p b.1 := by
  induction h with
  | single hstep =>
    obtain ⟨c, hc⟩ := hstep
    exact ⟨_, by simp, Walk.single hc⟩
  | tail _ hstep ih =>
    obtain ⟨p, hne, hp⟩ := ih
    obtain ⟨c, hc⟩ := hstep
    exact ⟨_, by simp, hp.append (Walk.single hc)⟩

/-- In a graph without closed walks every finite part has a vertex that nothing
in it leads to. -/
theorem exists_source (h : Acyclic edges) {part : List V} (hne : part ≠ []) :
    ∃ v ∈ part, ∀ u c, (u, v, c) ∈ edges → u ∉ part := by
  have hirrefl : Std.Irrefl (Relation.TransGen fun x y : {v // v ∈ part} => Leads edges x.1 y.1) :=
    ⟨fun x hx => by
      obtain ⟨p, hnonempty, hp⟩ := exists_walk_of_transGen hx
      exact hnonempty (h x.1 p hp)⟩
  have hfinite : Finite {v // v ∈ part} := List.finite_toSet part
  have hwf := Finite.wellFounded_of_trans_of_irrefl
    (Relation.TransGen fun x y : {v // v ∈ part} => Leads edges x.1 y.1)
  obtain ⟨first, hfirst⟩ := List.exists_mem_of_ne_nil part hne
  obtain ⟨least, _, hleast⟩ := hwf.has_min Set.univ ⟨⟨first, hfirst⟩, trivial⟩
  refine ⟨least.1, least.2, fun u c hedge hu => ?_⟩
  exact hleast ⟨u, hu⟩ trivial (.single ⟨c, hedge⟩)

end SilFormal.Digraph
