import SilFormal.Kernel.RouterLemmas

/-!
# The inputs of a Step

`ProcessParticipant::step` merges the visible inputs of its routes in global
publish order.  Each iteration takes the front with the least sequence number
among the visible ones.  Along a route the numbers increase, so that front has
the least number of everything that is ready, and the loop collects the ready
Messages of all routes in the order of their numbers.
-/

namespace SilFormal.Kernel.Router

open List

/-- The Messages at the front of the routes that are visible, route by route:
of each route the longest prefix all of whose Messages are visible. -/
def arrivals (owner : String) (inputs : List String) (r : Router) :
    List (String × PendingMessage) :=
  inputs.flatMap fun c => ((r.routes owner c).ready r.nowNs).map fun m => (c, m)

/-- The order of the global sequence numbers. -/
def seqLe (a b : String × PendingMessage) : Prop :=
  a.2.globalSeq ≤ b.2.globalSeq

instance : DecidableRel seqLe := fun _ _ => Nat.decLe _ _

instance : Std.Total seqLe := ⟨fun _ _ => Nat.le_total _ _⟩

instance : IsTrans (String × PendingMessage) seqLe := ⟨fun _ _ _ => Nat.le_trans⟩

/-- A taken Message as the Step gets it. -/
def toInput (p : String × PendingMessage) : StepInput :=
  ⟨p.1, p.2.publishNs, p.2.bytes⟩

/-- Pending Messages carry distinct sequence numbers that increase along every
route. -/
structure Sequenced (owner : String) (inputs : List String) (r : Router) : Prop where
  increasing : ∀ c ∈ inputs,
    ((r.routes owner c).pending.map PendingMessage.globalSeq).Pairwise (· < ·)
  distinct : (inputs.flatMap fun c => (r.routes owner c).pending.map PendingMessage.globalSeq).Nodup

section Best

variable {owner : String} {r : Router}

/-- The number at the front of a route. -/
def frontNumber (owner : String) (r : Router) (c : String) : Nat :=
  (r.routes owner c).frontSeq.getD 0

/-- No visible input has a smaller number at its front than the one the loop
chooses. -/
theorem best_fold_le {inputs : List String} {b : Option String} {x : String}
    (h : inputs.foldl (r.better owner) b = some x) :
    (∀ y, b = some y → frontNumber owner r x ≤ frontNumber owner r y) ∧
      ∀ c ∈ inputs, (r.routes owner c).visibleAt r.nowNs = true →
        frontNumber owner r x ≤ frontNumber owner r c := by
  induction inputs generalizing b with
  | nil =>
    subst h
    refine ⟨?_, by simp⟩
    rintro _ ⟨⟩
    exact le_rfl
  | cons channel rest ih =>
    obtain ⟨hb, hrest⟩ := ih h
    cases hv : (r.routes owner channel).visibleAt r.nowNs with
    | false =>
      rw [better_of_not_visible owner r hv] at hb
      refine ⟨hb, fun c hc hcv => ?_⟩
      rcases mem_cons.mp hc with rfl | hc
      · rw [hv] at hcv
        cases hcv
      · exact hrest c hc hcv
    | true =>
      -- The choice at this input is at least as good as both candidates.
      have hboth : frontNumber owner r x ≤ frontNumber owner r channel ∧
          ∀ y, b = some y → frontNumber owner r x ≤ frontNumber owner r y := by
        cases b with
        | none => exact ⟨hb channel (by simp [better, hv]), by simp⟩
        | some y =>
          by_cases hlt : frontNumber owner r channel < frontNumber owner r y
          · have hx := hb channel (by rw [better, if_pos hv]; exact if_pos hlt)
            refine ⟨hx, ?_⟩
            rintro _ ⟨⟩
            omega
          · have hx := hb y (by rw [better, if_pos hv]; exact if_neg hlt)
            refine ⟨by omega, ?_⟩
            rintro _ ⟨⟩
            exact hx
      refine ⟨hboth.2, fun c hc hcv => ?_⟩
      rcases mem_cons.mp hc with rfl | hc
      · exact hboth.1
      · exact hrest c hc hcv

end Best

section Merge

variable {owner channel : String} {inputs : List String} {r r' : Router} {m : PendingMessage}
  {rest : List PendingMessage}

theorem frontNumber_of_ready (h : (r.routes owner channel).ready r.nowNs = m :: rest) :
    frontNumber owner r channel = m.globalSeq := by
  have hsplit := (r.routes owner channel).ready_append_waiting r.nowNs
  rw [h] at hsplit
  simp [frontNumber, SubscriberRoute.frontSeq, ← hsplit]

/-- The front that is chosen has the least number of everything ready. -/
theorem Sequenced.seqLe_of_best (h : Sequenced owner inputs r)
    (hbest : r.best owner inputs = some channel)
    (hready : (r.routes owner channel).ready r.nowNs = m :: rest) :
    ∀ p ∈ arrivals owner inputs r, seqLe (channel, m) p := by
  intro p hp
  obtain ⟨c, hc, hp⟩ := mem_flatMap.mp hp
  obtain ⟨x, hx, rfl⟩ := mem_map.mp hp
  have hne : (r.routes owner c).ready r.nowNs ≠ [] := ne_nil_of_mem hx
  have hvisible := (SubscriberRoute.visibleAt_iff_ready _ _).mpr hne
  obtain ⟨front, others, hfront⟩ := exists_cons_of_ne_nil hne
  have hle := (best_fold_le hbest).2 c hc hvisible
  rw [frontNumber_of_ready hready, frontNumber_of_ready hfront] at hle
  -- Along the route of `x` the numbers start with its front's.
  have hincreasing := h.increasing c hc
  rw [← (r.routes owner c).ready_append_waiting r.nowNs, map_append] at hincreasing
  have hfirst := (pairwise_append.mp hincreasing).1
  rw [hfront, map_cons, pairwise_cons] at hfirst
  rw [hfront] at hx
  rcases mem_cons.mp hx with rfl | hx
  · exact hle
  · exact hle.trans (hfirst.1 _ (mem_map_of_mem hx)).le

/-- What a take leaves of the ready Messages. -/
theorem Took.arrivals_perm (h : Took owner channel m r r') (hinputs : inputs.Nodup)
    (hmem : channel ∈ inputs) :
    (arrivals owner inputs r).Perm ((channel, m) :: arrivals owner inputs r') := by
  obtain ⟨before, after, rfl⟩ := append_of_mem hmem
  have hsame : ∀ part : List String, channel ∉ part →
      arrivals owner part r = arrivals owner part r' := by
    intro part hnot
    refine flatMap_congr fun c hc => ?_
    have hne : c ≠ channel := fun heq => hnot (heq ▸ hc)
    rw [h.ready_after c, if_neg hne, nil_append]
  have hnot := nodup_append.mp hinputs
  have hbefore : channel ∉ before := fun hin => hnot.2.2 _ hin _ mem_cons_self rfl
  have hafter : channel ∉ after := (nodup_cons.mp hnot.2.1).1
  have hself := h.ready_after channel
  simp only [arrivals] at hsame
  simp only [arrivals, flatMap_append, flatMap_cons, hsame before hbefore,
    hsame after hafter, hself]
  simp

omit owner channel inputs r r' m in
theorem flatMap_sublist {α β : Type} {f g : α → List β} (h : ∀ a, (f a).Sublist (g a))
    (l : List α) : (l.flatMap f).Sublist (l.flatMap g) := by
  induction l with
  | nil => exact List.Sublist.refl _
  | cons a rest ih => exact (h a).append ih

theorem Took.sequenced (h : Took owner channel m r r') (hs : Sequenced owner inputs r) :
    Sequenced owner inputs r' := by
  have hsub : ∀ c, ((r'.routes owner c).pending.map PendingMessage.globalSeq).Sublist
      ((r.routes owner c).pending.map PendingMessage.globalSeq) := by
    intro c
    refine List.Sublist.map _ ?_
    by_cases hc : c = channel
    · rw [hc, h.self.1]
      exact tail_sublist _
    · rw [(h.other fun hh => hc hh.2).1]
  exact ⟨fun c hc => (hs.increasing c hc).sublist (hsub c),
    hs.distinct.sublist (flatMap_sublist hsub inputs)⟩

/-- What is ready is told apart by its numbers. -/
theorem Sequenced.eq_of_seq_eq (h : Sequenced owner inputs r) {a b : String × PendingMessage}
    (ha : a ∈ arrivals owner inputs r) (hb : b ∈ arrivals owner inputs r)
    (heq : a.2.globalSeq = b.2.globalSeq) : a = b := by
  refine inj_on_of_nodup_map (f := fun p => p.2.globalSeq) (h.distinct.sublist ?_) ha hb heq
  rw [arrivals, map_flatMap]
  refine flatMap_sublist (fun c => ?_) inputs
  rw [map_map]
  exact (takeWhile_sublist _).map _

/-- The merge loop sorts what is ready. -/
theorem merge_sorted (fuel : Nat) (hfuel : r.readyCount owner inputs ≤ fuel)
    (hinputs : inputs.Nodup) (hs : Sequenced owner inputs r) :
    (merge owner inputs fuel r).1 =
      ((arrivals owner inputs r).insertionSort seqLe).map toInput := by
  have hnil : ∀ r : Router, (∀ c ∈ inputs, (r.routes owner c).ready r.nowNs = []) →
      arrivals owner inputs r = [] := by
    intro r hready
    simpa [arrivals] using hready
  induction fuel generalizing r with
  | zero =>
    have hzero : (arrivals owner inputs r).length = 0 := by
      rw [arrivals]
      simpa [readyCount] using hfuel
    rw [length_eq_zero_iff.mp hzero]
    rfl
  | succ fuel ih =>
    unfold merge
    cases hbest : r.best owner inputs with
    | none =>
      rw [hnil r fun c hc => best_eq_none owner r hbest hc]
      rfl
    | some channel =>
      obtain ⟨hmem, hne⟩ := best_eq_some owner r hbest
      obtain ⟨m, rest, hready⟩ := exists_cons_of_ne_nil hne
      have htake := take_of_ready hready
      have hleast := hs.seqLe_of_best hbest hready
      simp only [htake]
      generalize hr' : (r.setRoute owner channel (r.routes owner channel).pop).note
        (.took owner channel m) = r'
      rw [hr'] at htake
      have htook := take_spec htake
      have hlt := htook.readyCount_lt hmem
      rw [ih (by omega) (htook.sequenced hs)]
      show ((channel, m) :: (arrivals owner inputs r').insertionSort seqLe).map toInput = _
      congr 1
      -- Two sorted arrangements of what is ready, told apart by its numbers.
      have hperm := htook.arrivals_perm hinputs hmem
      have hleft : ((channel, m) :: (arrivals owner inputs r').insertionSort seqLe).Perm
          (arrivals owner inputs r) :=
        ((perm_insertionSort seqLe _).cons _).trans hperm.symm
      refine List.Perm.eq_of_pairwise ?_ ?_ (pairwise_insertionSort seqLe _)
        (hleft.trans (perm_insertionSort seqLe _).symm)
      · intro a b ha hb hab hba
        exact hs.eq_of_seq_eq (hleft.mem_iff.mp ha)
          ((perm_insertionSort seqLe _).mem_iff.mp hb) (Nat.le_antisymm hab hba)
      · refine pairwise_cons.mpr ⟨fun p hp => hleast p ?_, pairwise_insertionSort seqLe _⟩
        exact hleft.mem_iff.mp (mem_cons_of_mem _ hp)

/-- A Step at an instant collects, of every route, the longest prefix all of
whose Messages are visible, all of them sorted by sequence number, and leaves
the route with what comes after that prefix, so empty or with an invisible
front. -/
theorem takeInputs_sorted (owner : String) (inputs : List String) (r : Router)
    (hinputs : inputs.Nodup) (hs : Sequenced owner inputs r) :
    (r.takeInputs owner inputs).1 = ((arrivals owner inputs r).insertionSort seqLe).map toInput ∧
      ∀ c ∈ inputs, ((r.takeInputs owner inputs).2.routes owner c).pending =
            (r.routes owner c).pending.drop ((r.routes owner c).ready r.nowNs).length ∧
          ((r.takeInputs owner inputs).2.routes owner c).visibleAt r.nowNs = false := by
  refine ⟨merge_sorted _ (readyCount_le_mergeFuel owner inputs r) hinputs hs, fun c hc => ?_⟩
  rw [(takeInputs_drained owner inputs r).route c hc]
  constructor
  · conv_rhs => rw [← (r.routes owner c).ready_append_waiting r.nowNs]
    rw [drop_left]
    rfl
  · rw [Bool.eq_false_iff, ne_eq, SubscriberRoute.visibleAt_iff_ready, not_not]
    simp only [SubscriberRoute.ready, SubscriberRoute.drained, SubscriberRoute.waiting]
    cases hwaiting : (r.routes owner c).pending.dropWhile (fun m : PendingMessage =>
        visible (r.routes owner c).latencyNs r.nowNs m.publishNs) with
    | nil => rfl
    | cons front rest =>
      have hhead := head?_dropWhile_not
        (fun m : PendingMessage => visible (r.routes owner c).latencyNs r.nowNs m.publishNs)
        (r.routes owner c).pending
      rw [hwaiting] at hhead
      simpa using hhead

end Merge

/-- Two routes whose Messages interleave, the second held back by a Message
that is not visible yet. -/
def interleavedRouter : Router where
  nowNs := 10
  globalSeq := 6
  channels := fun _ => none
  routes := fun _ c =>
    if c = "left" then ⟨none, none, .fail, [⟨1, 1, [1]⟩, ⟨3, 4, [4]⟩, ⟨9, 5, [5]⟩]⟩
    else ⟨some 4, none, .fail, [⟨2, 0, [0]⟩, ⟨2, 2, [2]⟩, ⟨8, 3, [3]⟩]⟩
  recording := []
  trace := []

theorem takeInputs_sorted_interleaved :
    ["left", "right"].Nodup ∧ Sequenced "display" ["left", "right"] interleavedRouter ∧
      (interleavedRouter.takeInputs "display" ["left", "right"]).1 =
        [⟨"right", 2, [0]⟩, ⟨"left", 1, [1]⟩, ⟨"right", 2, [2]⟩, ⟨"left", 3, [4]⟩,
          ⟨"left", 9, [5]⟩] ∧
      ((interleavedRouter.takeInputs "display" ["left", "right"]).2.routes
        "display" "right").pending = [⟨8, 3, [3]⟩] := by
  have hnodup : ["left", "right"].Nodup := by decide
  have hsequenced : Sequenced "display" ["left", "right"] interleavedRouter :=
    ⟨by decide, by decide⟩
  have hsorted := takeInputs_sorted "display" ["left", "right"] interleavedRouter hnodup hsequenced
  exact ⟨hnodup, hsequenced, hsorted.1.trans (by decide),
    (hsorted.2 "right" (by decide)).1.trans (by decide)⟩

end SilFormal.Kernel.Router
