import SilFormal.Kernel.AgendaOrder
import SilFormal.Kernel.OrderIndependence
import SilFormal.Kernel.Unbounded

/-!
# Order inside a Slot with bounded routes

A route is full or not at the instant of a publish, so its depth depends on
whether its owner has taken its inputs before, and with it on the order inside
the Slot.  If the publisher of the bounded routes is moved behind other Tasks,
each of its publishes finds the routes no deeper than before: a Run without a
refused Message stays one, and nothing that participants observe changes.  The
other way round this fails.
-/

namespace SilFormal.Kernel
namespace Engine

open List

universe u v

variable {σ : Type u} {cap : String → String → Option Nat}

/-! ## Activations -/

variable {t : Task σ} {free : String → Prop} {slot : Nat}

theorem activate_unbounded {e : Engine σ}
    (h : e.unbounded.call t = ((e.call t).1.unbounded, (e.call t).2)) :
    e.unbounded.activate t = (e.activate t).unbounded := by
  simp only [activate, h]
  rfl

/-- Without capacities the routes of other Channels do not grow. -/
theorem call_depth_le {e : Engine σ} (hbounded : e.router.Bounded cap) (t : Task σ) {o c : String}
    {k : Nat} (hk : cap o c = some k) (hc : c ∉ (e.contracts t.owner).publishes) :
    ((e.unbounded.call t).1.routes o c).depth ≤ k :=
  ((e.unbounded.call_acts false t (by simp)).depth_ge o hc).trans
    (hbounded.depth_le o c k hk)

/-- A participant that publishes on no bounded route is never refused. -/
theorem call_refusesNone {e : Engine σ} (hopen : e.unbounded.router.Open)
    (hbounded : e.router.Bounded cap) (hnone : e.router.RefusesNone)
    (hfree : ∀ c ∈ (e.contracts t.owner).publishes, ∀ o, cap o c = none) :
    (e.call t).1.RefusesNone := by
  cases call_matches (fun c hc => hfree c hc t.owner) hopen hbounded hnone with
  | same hnone' _ => exact hnone'
  | exceeds _ hexceeds =>
    obtain ⟨o, c, k, _, hk, hlt⟩ := hexceeds
    have hc : c ∉ (e.contracts t.owner).publishes := fun hmem => by
      rw [hfree c hmem o] at hk
      cases hk
    exact absurd (call_depth_le hbounded t hk hc) (by omega)

/-- An activation that is not refused in one state is not refused in another
one that looks the same to the participant and whose routes hold no more. -/
theorem call_refusesNone_of_roomier {e e' : Engine σ} (ht : t.fn.Routewise)
    (hself : ∀ c ∈ (e.contracts t.owner).publishes, cap t.owner c = none)
    (hopen : e.unbounded.router.Open) (hopen' : e'.unbounded.router.Open)
    (hbounded : e.router.Bounded cap) (hbounded' : e'.router.Bounded cap)
    (hnone : (e.call t).1.RefusesNone) (hnone' : e'.router.RefusesNone)
    (hview : View (fun _ => true) free (some t.owner) e.unbounded e'.unbounded)
    (hroom : ∀ o c, (e'.router.readyContent o c).length ≤
      (e.router.readyContent o c).length) : (e'.call t).1.RefusesNone := by
  have hacts := e.call_acts false t (by simp)
  have hstart : e.router.RefusesNone := hnone.of_trace
    ((prefix_append _ _).trans hacts.steps.trace_le)
  have hcontracts : e'.contracts t.owner = e.contracts t.owner := hview.1.symm
  cases call_matches (hcontracts ▸ hself) hopen' hbounded' hnone' with
  | same hnone'' _ => exact hnone''
  | exceeds _ hexceeds =>
    exfalso
    obtain ⟨o, c, k, hne, hk, hlt⟩ := hexceeds
    by_cases hc : c ∈ (e.contracts t.owner).publishes
    · cases call_matches hself hopen hbounded hstart with
      | exceeds hrefused _ => exact hrefused hnone
      | same _ heq =>
        have hdepth : ((e.unbounded.call t).1.routes o c).depth ≤ k := by
          rw [heq]
          exact ((hbounded.note _).steps hacts.steps).depth_le o c k hk
        have hagree := call_determined ht hopen hopen' hview
        have hwaiting := (hagree.same.publishing c hc).waiting o rfl
        have hready := ((call_frame (fun _ => true) hopen t).2.1 o hne).ready c
        have hready' := ((call_frame (fun _ => true) hopen' t).2.1 o hne).ready c
        have hle : (e'.unbounded.router.readyContent o c).length ≤
            (e.unbounded.router.readyContent o c).length := hroom o c
        rw [Router.depth_eq, ← hready, hwaiting] at hdepth
        rw [Router.depth_eq, ← hready'] at hlt
        omega
    · exact absurd (call_depth_le hbounded' t hk (hcontracts ▸ hc)) (by omega)

/-! ## Activations one after another -/

theorem execute_of_ok {e : Engine σ} (hf : e.failure = none) (t : Task σ) :
    e.execute (.task t) = e.activate t := by
  simp [execute, hf]

/-- As long as no Message is refused, activations do the same with and without
capacities. -/
theorem foldl_execute_unbounded {l : List (Task σ)} {e : Engine σ}
    (hself : ∀ o, ∀ c ∈ (e.contracts o).publishes, cap o c = none) (hopen : e.unbounded.router.Open)
    (hbounded : e.router.Bounded cap)
    (hnone : ((l.map Due.task).foldl execute e).router.RefusesNone) :
    (l.map Due.task).foldl execute e.unbounded = ((l.map Due.task).foldl execute e).unbounded := by
  induction l generalizing e with
  | nil => rfl
  | cons t rest ih =>
    rw [map_cons, foldl_cons] at hnone
    rw [map_cons, foldl_cons, foldl_cons]
    by_cases hf : e.failure = none
    · rw [execute_of_ok hf] at hnone ⊢
      rw [execute_of_ok (e := e.unbounded) hf]
      have hacts := e.call_acts false t (by simp)
      have hsteps := foldl_execute_steps false (l := rest.map Due.task)
        (e := e.activate t) (by simp)
      have hcall : (e.call t).1.RefusesNone := hnone.of_trace hsteps.trace_le
      have hstart : e.router.RefusesNone := hcall.of_trace
        ((prefix_append _ _).trans hacts.steps.trace_le)
      cases call_matches (hself t.owner) hopen hbounded hstart with
      | exceeds hrefused _ => exact absurd hcall hrefused
      | same _ heq =>
        rw [activate_unbounded heq]
        refine ih hself ?_ ((hbounded.note _).steps hacts.steps) hnone
        have hopen' := (call_frame (fun _ => true) hopen t).1
        rw [heq] at hopen'
        exact hopen'
    · have hfailed : e.failure.isSome = true := Option.isSome_iff_ne_none.mpr hf
      rw [execute_of_failed e _ hfailed] at hnone ⊢
      rw [execute_of_failed e.unbounded _ hfailed]
      exact ih hself hopen hbounded hnone

/-- What is ready only gets less in a Slot. -/
theorem runAll_ready_le {l : List (Task σ)} {e e₁ : Engine σ} (hvalid : e.Valid free)
    (h : Interleaving.runAll perform l e = some e₁) (o c : String) :
    (e₁.router.readyContent o c).length ≤ (e.router.readyContent o c).length := by
  induction l generalizing e with
  | nil =>
    injection h with h
    rw [h]
  | cons t rest ih =>
    obtain ⟨e₂, hperform, hrest⟩ := Interleaving.runAll_cons_eq_some_iff.mp h
    have hvalid₂ := (separate (fun _ => true) free).keep t e e₂ hvalid hperform
    refine (ih hvalid₂ hrest).trans ?_
    obtain ⟨_, rfl⟩ := perform_eq_some hperform
    have hopen : (e.router.note (.activation t.owner e.router.nowNs)).Open :=
      ⟨hvalid.opened.capacity, hvalid.opened.latency, hvalid.opened.now_le⟩
    exact (e.call_acts false t (by simp)).ready_le hopen o c

theorem served_bounded {e : Engine σ} (h : e.router.Bounded cap) (slot : Nat) (l : List (Task σ)) :
    ((l.map Due.task).foldl execute (e.openSlot slot)).router.Bounded cap := by
  have hopened : (e.openSlot slot).router.Bounded cap := h.of_routes rfl
  exact hopened.steps (foldl_execute_steps false (by simp))

/-! ## The place of the publisher -/

theorem owner_of_bare {t' : Task σ} (h : t.bare = t'.bare) : t.owner = t'.owner := by
  have howner := congrArg Task.owner h
  exact howner

/-- The Task of a participant stands in the second engine behind every Task it
stands behind in the first. -/
def Postponed (owner : String) (e e' : Engine σ) : Prop :=
  ∀ p ∈ e.tasks, ∀ p' ∈ e'.tasks, p.owner = owner → p'.owner = owner →
    ∀ t ∈ e.tasks, ∀ t' ∈ e'.tasks, t'.owner = t.owner → t.before p → t'.before p'

theorem taskQueue_pairwise (e : Engine σ) (slot : Nat) : (e.taskQueue slot).Pairwise Task.before :=
  pairwise_insertionSort Task.before _

theorem agenda_eq_taskQueue {e : Engine σ} (h : e.replayers = []) (slot : Nat) :
    e.agenda slot = (e.taskQueue slot).map .task := by
  rw [agenda_of_unprioritised (by simp [h]), h]
  rfl

theorem tasksOf_map_task (l : List (Task σ)) : tasksOf (l.map Due.task) = l := by
  rw [tasksOf, filterMap_map]
  exact filterMap_some

variable {e e' : Engine σ} {front' back' back : List (Task σ)}

theorem taskQueue_perm (h : (e.tasks.map Task.bare).Perm (e'.tasks.map Task.bare))
    (hr : e.replayers = []) (hr' : e'.replayers = []) (slot : Nat) :
    ((e.taskQueue slot).map Task.bare).Perm ((e'.taskQueue slot).map Task.bare) := by
  have hperm := due_perm h slot
  rwa [agenda_eq_taskQueue hr, agenda_eq_taskQueue hr', tasksOf_map_task, tasksOf_map_task] at hperm

/-- What stands before the publisher in the first queue stands before it in the
second. -/
theorem Postponed.taskQueue {owner : String} (h : Postponed owner e e')
    (hperm : ∀ slot, ((e.taskQueue slot).map Task.bare).Perm
      ((e'.taskQueue slot).map Task.bare)) (howners : (e.tasks.map Task.owner).Nodup)
    (hindex : (e'.tasks.map Task.registrationIndex).Nodup) {p' : Task σ}
    (hqueue' : e'.taskQueue slot = front' ++ p' :: back') (hp' : p'.owner = owner) :
    ∃ p front back, e.taskQueue slot = front ++ p :: back ∧ p.bare = p'.bare ∧
      front.map Task.bare ⊆ front'.map Task.bare := by
  have hmem' : p' ∈ e'.taskQueue slot := hqueue' ▸ by simp
  obtain ⟨p, hp, hbare⟩ := mem_map.mp
    ((hperm slot).mem_iff.mpr (mem_map_of_mem hmem'))
  obtain ⟨front, back, hqueue⟩ := append_of_mem hp
  refine ⟨p, front, back, hqueue, hbare, fun b hb => ?_⟩
  obtain ⟨t, ht, rfl⟩ := mem_map.mp hb
  have htq : t ∈ e.taskQueue slot := hqueue ▸ mem_append_left _ ht
  obtain ⟨t', ht', htbare⟩ := mem_map.mp
    ((hperm slot).mem_iff.mp (mem_map_of_mem htq))
  have hpowner : p.owner = owner := (owner_of_bare hbare).trans hp'
  have htowner : t'.owner = t.owner := owner_of_bare htbare
  have hpt : t.before p := by
    have hsorted := e.taskQueue_pairwise slot
    rw [hqueue, pairwise_append] at hsorted
    exact hsorted.2.2 t ht p (by simp)
  have hne : t ≠ p := by
    rintro rfl
    have hnodup : (e.taskQueue slot).Nodup :=
      ((perm_insertionSort _ _).nodup_iff).mpr (howners.of_map.filter _)
    rw [hqueue] at hnodup
    exact (nodup_append.mp hnodup).2.2 t ht t (by simp) rfl
  have hmemt := (mem_taskQueue.mp htq).1
  have hmemp := (mem_taskQueue.mp hp).1
  have hmemt' := (mem_taskQueue.mp ht').1
  have hmemp' := (mem_taskQueue.mp hmem').1
  have hbefore := h p hmemp p' hmemp' hpowner hp' t hmemt t' hmemt' htowner hpt
  rw [hqueue', mem_append, mem_cons] at ht'
  rcases ht' with hfront | rfl | hback
  · exact mem_map.mpr ⟨t', hfront, htbare⟩
  · exact absurd (inj_on_of_nodup_map howners hmemt hmemp
      (htowner.symm.trans (hp'.trans hpowner.symm))) hne
  · -- in both orders of each other the two Tasks would be one
    have hafter : p'.before t' := by
      have hsorted := e'.taskQueue_pairwise slot
      rw [hqueue', pairwise_append, pairwise_cons] at hsorted
      exact hsorted.2.1.1 t' hback
    have hidx : t'.registrationIndex = p'.registrationIndex := by
      rw [Task.before_iff] at hbefore hafter
      omega
    have heq := inj_on_of_nodup_map hindex hmemt' hmemp' hidx
    refine absurd (inj_on_of_nodup_map howners hmemt hmemp ?_) hne
    rw [← htowner, heq, hp', hpowner]

/-! ## One Slot -/

theorem call_bare (e : Engine σ) (t : Task σ) : e.call t.bare = e.call t := rfl

/-- The Tasks of a part of the queue, as actions. -/
theorem Independent.front_actions (h : e.Independent) {front : List (Task σ)}
    (hqueue : e.taskQueue slot = front ++ back) :
    (∀ t ∈ front.map Task.bare, t.fn.Routewise) ∧
      ((front.map Task.bare).map fun t => some t.owner).Nodup := by
  have hsub : front.Sublist (e.taskQueue slot) := hqueue ▸ sublist_append_left front back
  have hroutewise := h.agenda_routewise slot
  have hnodup := h.agenda_owners slot
  rw [agenda_eq_taskQueue h.replayers, tasksOf_map_task] at hroutewise hnodup
  refine ⟨fun t ht => ?_, hnodup.sublist ((hsub.map _).map _)⟩
  exact hroutewise t ((hsub.map Task.bare).subset ht)

/-- Two engines in the same state, of which the second has run more of a Slot:
less is ready in it, and it looks the same to a participant that comes next. -/
theorem Alike.front (halike : e.Alike e') (h : e.Independent) (h' : e'.Independent)
    (hslot : slot ≤ uint64Max) {front : List (Task σ)} (hqueue : e.taskQueue slot = front ++ back)
    (hqueue' : e'.taskQueue slot = front' ++ back')
    (hsub : front.map Task.bare ⊆ front'.map Task.bare) {y' : Engine σ}
    (hrun' : Interleaving.runAll perform (front'.map Task.bare) (e'.openSlot slot) = some y') :
    ∃ y, Interleaving.runAll perform (front.map Task.bare) (e.openSlot slot) = some y ∧
      (∀ o c, (y'.router.readyContent o c).length ≤ (y.router.readyContent o c).length) ∧
      ∀ o, (∀ t ∈ front', t.owner ≠ o) → View (fun _ => true) e.Unpublished (some o) y y' := by
  have hfree : e'.Unpublished = e.Unpublished := by
    funext c
    simp only [Unpublished, halike.contracts]
  have hvalid := h.openSlot_valid hslot
  have hvalid' := hfree ▸ h'.openSlot_valid hslot
  have hviews := halike.openSlot slot
  obtain ⟨hfair, hnodup⟩ := h.front_actions hqueue
  obtain ⟨hfair', hnodup'⟩ := h'.front_actions hqueue'
  have hseparate := separate (σ := σ) (fun _ => true) e.Unpublished
  have honly := Interleaving.only_of_subset hsub hnodup hnodup'
  obtain ⟨y, hrun⟩ : ∃ y, Interleaving.runAll perform (front.map Task.bare)
      (e.openSlot slot) = some y := by
    refine hseparate.exists_runAll hfair hvalid fun i => ?_
    rcases honly i with hnil | heq
    · exact ⟨_, by rw [hnil]; rfl⟩
    · obtain ⟨u, hu, _⟩ := hseparate.runAll_only i hfair' hvalid' hvalid
        (hviews i).symm hrun'
      exact ⟨u, heq ▸ hu⟩
  refine ⟨y, hrun, fun o c => ?_, fun o ho => ?_⟩
  · rcases honly (some o) with hnil | heq
    · -- the owner has not run in the first engine
      have hframe := hseparate.runAll_frame hfair hnil hvalid hrun
      rw [← hframe.2.2.2.taking.ready c, (hviews (some o)).2.2.2.taking.ready c]
      exact runAll_ready_le hvalid' hrun' o c
    · have hview := hseparate.view_of_only_eq hfair hfair' heq hvalid hvalid'
        (hviews (some o)) hrun hrun'
      rw [hview.2.2.2.taking.ready c]
  · have hnil' : Interleaving.only (fun t : Task σ => some t.owner) (some o)
        (front'.map Task.bare) = [] := by
      rw [Interleaving.only, filter_eq_nil_iff]
      intro b hb
      obtain ⟨t, ht, rfl⟩ := mem_map.mp hb
      simpa [Task.bare] using ho t ht
    have hnil : Interleaving.only (fun t : Task σ => some t.owner) (some o)
        (front.map Task.bare) = [] := by
      rcases honly (some o) with hnil | heq
      · exact hnil
      · exact heq.trans hnil'
    exact hseparate.view_of_only_eq hfair hfair' (hnil.trans hnil'.symm) hvalid hvalid'
      (hviews (some o)) hrun hrun'

/-- Two engines at the start of a Slot: in the same state but for the order of
their Tasks, with the same capacities, all of them on Channels of one
publisher, which is postponed in the second. -/
structure Compared (cap : String → String → Option Nat) (owner : String) (e e' : Engine σ) :
    Prop where
  alike : e.unbounded.Alike e'.unbounded
  left : e.unbounded.Independent
  right : e'.unbounded.Independent
  bounded : e.router.Bounded cap
  bounded' : e'.router.Bounded cap
  accepted : e.router.RefusesNone
  accepted' : e'.router.RefusesNone
  self : ∀ o, ∀ c ∈ (e.contracts o).publishes, cap o c = none
  publisher : ∀ o c, cap o c ≠ none → c ∈ (e.contracts owner).publishes
  postponed : Postponed owner e e'

namespace Compared

variable {owner : String} {slot : Nat}

theorem contracts (h : Compared cap owner e e') : e.contracts = e'.contracts :=
  h.alike.contracts

theorem openSlot_open (h : Compared cap owner e e') (hslot : slot ≤ uint64Max) :
    (e.openSlot slot).unbounded.router.Open ∧ (e'.openSlot slot).unbounded.router.Open :=
  ⟨(h.left.openSlot_valid hslot).opened, (h.right.openSlot_valid hslot).opened⟩

/-- The publisher is not refused in the second engine. -/
theorem call_publisher (h : Compared cap owner e e') (hf : e.failure = none)
    (hf' : e'.failure = none) (hslot : slot ≤ uint64Max)
    (hnone : (e.runSlot slot).router.RefusesNone) {p' : Task σ} {front' back' : List (Task σ)}
    {x' : Engine σ} (hqueue' : e'.taskQueue slot = front' ++ p' :: back') (hp' : p'.owner = owner)
    (hx' : x' = (front'.map Due.task).foldl execute (e'.openSlot slot)) (hok' : x'.failure = none)
    (hnone' : x'.router.RefusesNone) : (x'.call p').1.RefusesNone := by
  obtain ⟨hopen, hopen'⟩ := h.openSlot_open hslot
  have hself' : ∀ o, ∀ c ∈ (e'.contracts o).publishes, cap o c = none := by
    rw [← h.contracts]
    exact h.self
  obtain ⟨p, front, back, hqueue, hbare, hsub⟩ := h.postponed.taskQueue
    (taskQueue_perm h.alike.tasks h.left.replayers h.right.replayers)
    h.left.owners h.right.scheduled.task_index hqueue' hp'
  -- the second engine up to the publisher, without capacities
  have hfold' := foldl_execute_unbounded (e := e'.openSlot slot) hself' hopen'
    (h.bounded'.of_routes rfl) (hx' ▸ hnone')
  rw [← hx'] at hfold'
  obtain ⟨_, y', hrun', hbase'⟩ := (foldl_execute_runAll (l := front')
    (SameBase.refl (e'.openSlot slot).unbounded) hf').resolve_right fun hfail =>
      hfail.1 (hfold' ▸ hok')
  rw [hfold'] at hbase'
  obtain ⟨y, hrun, hready, hview⟩ :=
    h.alike.front h.left h.right hslot hqueue hqueue' hsub hrun'
  -- the first engine up to the publisher, which it then activates
  have hslotRun : e.runSlot slot = (back.map Due.task).foldl execute
      (((front.map Due.task).foldl execute (e.openSlot slot)).execute (.task p)) := by
    have hagenda := agenda_eq_taskQueue (e := e) h.left.replayers slot
    rw [runSlot, hagenda, hqueue, map_append, foldl_append, map_cons, foldl_cons]
  generalize hx : (front.map Due.task).foldl execute (e.openSlot slot) = x at hslotRun
  rw [hslotRun] at hnone
  have hactivated := hnone.of_trace (foldl_execute_steps false (by simp)).trace_le
  have hnonex := hactivated.of_trace (execute_steps false (by simp)).trace_le
  have hfold := foldl_execute_unbounded (e := e.openSlot slot) h.self hopen
    (h.bounded.of_routes rfl) (hx ▸ hnonex)
  rw [hx] at hfold
  obtain ⟨hok, y₁, hrun₁, hbase⟩ := (foldl_execute_runAll
    (SameBase.refl (e.openSlot slot).unbounded) hf).resolve_right fun hfail => by
      rw [show Interleaving.runAll perform (front.map Task.bare)
        (e.openSlot slot).unbounded = some y from hrun] at hfail
      cases hfail.2
  obtain rfl : y₁ = y := Option.some.inj (hrun₁.symm.trans hrun)
  rw [hfold] at hok hbase
  rw [execute_of_ok (e := x) hok] at hactivated
  have hcall : (x.call p').1.RefusesNone := by
    rw [← call_bare, ← hbare]
    exact hactivated
  have hcontracts : x.contracts = e.contracts := by
    rw [← hx]
    exact (foldl_execute_static _ _).2.1
  have hseparate := separate (σ := σ) (fun _ => true) e.unbounded.Unpublished
  have hopenx := (hseparate.runAll_valid (h.left.openSlot_valid hslot) hrun).opened
  have hopenx' := (separate (σ := σ) (fun _ => true) e'.unbounded.Unpublished).runAll_valid
    (h.right.openSlot_valid hslot) hrun'
  have hnotfront : ∀ t ∈ front', t.owner ≠ p'.owner := by
    intro t ht heq
    obtain ⟨_, hnodup⟩ := h.right.front_actions
      (hqueue'.trans (append_nil _).symm : e'.unbounded.taskQueue slot = _ ++ [])
    rw [map_append, map_append, nodup_append] at hnodup
    refine hnodup.2.2 (some t.owner) ?_ (some p'.owner) (by simp [Task.bare]) (by rw [heq])
    exact mem_map.mpr ⟨t.bare, mem_map_of_mem ht, rfl⟩
  have hmem' : p' ∈ e'.taskQueue slot := hqueue' ▸ by simp
  have hsame : View (fun _ => true) e.unbounded.Unpublished (some p'.owner)
      x.unbounded x'.unbounded :=
    ((View.of_sameBase hbase _).trans (hview _ hnotfront)).trans
      (View.of_sameBase hbase' _).symm
  refine call_refusesNone_of_roomier (h.right.routewise p' (mem_taskQueue.mp hmem').1)
    (hcontracts ▸ h.self p'.owner) (hbase.router ▸ hopenx) (hbase'.router ▸ hopenx'.opened)
    (hx ▸ served_bounded h.bounded slot front)
    (hx' ▸ served_bounded h.bounded' slot front') hcall hnone' hsame fun o c => ?_
  have hle := hready o c
  rw [hbase.router, hbase'.router] at hle
  exact hle

/-- The second engine refuses nothing in the Slot. -/
theorem runSlot_accepted (h : Compared cap owner e e') (hf : e.failure = none)
    (hf' : e'.failure = none) (hslot : slot ≤ uint64Max)
    (hnone : (e.runSlot slot).router.RefusesNone) : (e'.runSlot slot).router.RefusesNone := by
  have hself' : ∀ o, ∀ c ∈ (e'.contracts o).publishes, cap o c = none := by
    rw [← h.contracts]
    exact h.self
  have hopen' := (h.openSlot_open hslot).2
  have hbounded' : (e'.openSlot slot).router.Bounded cap := h.bounded'.of_routes rfl
  -- by induction on how much of the queue has been served
  have hserved : ∀ front back, e'.taskQueue slot = front ++ back →
      ((front.map Due.task).foldl execute (e'.openSlot slot)).router.RefusesNone := by
    intro front
    induction front using reverseRecOn with
    | nil =>
      intro back _
      exact h.accepted'.of_trace prefix_rfl
    | append_singleton front t ih =>
      intro back hqueue
      rw [append_assoc] at hqueue
      have hfront := ih _ hqueue
      rw [map_append, foldl_append, map_singleton, foldl_cons]
      generalize hx : (front.map Due.task).foldl execute (e'.openSlot slot) = x at hfront ⊢
      by_cases hok : x.failure = none
      · rw [execute_of_ok hok]
        by_cases howner : t.owner = owner
        · exact h.call_publisher hf hf' hslot hnone hqueue howner hx.symm hok hfront
        · have hcontracts : x.contracts = e.contracts := by
            rw [← hx, (foldl_execute_static _ _).2.1, h.contracts]
            rfl
          have hfold := foldl_execute_unbounded (e := e'.openSlot slot)
            hself' hopen' hbounded' (hx ▸ hfront)
          obtain ⟨_, y, hrun, hbase⟩ := (foldl_execute_runAll
            (SameBase.refl (e'.openSlot slot).unbounded) hf').resolve_right fun hfail =>
              hfail.1 (by rw [hfold, hx]; exact hok)
          rw [hfold, hx] at hbase
          have hvalid := (separate (σ := σ) (fun _ => true)
            e'.unbounded.Unpublished).runAll_valid (h.right.openSlot_valid hslot) hrun
          have hboundedx : x.router.Bounded cap := hx ▸ served_bounded h.bounded' slot front
          refine call_refusesNone (hbase.router ▸ hvalid.opened) hboundedx hfront
            fun c hc o => ?_
          by_contra hcap
          rw [hcontracts] at hc
          exact howner (h.left.valid.one_publisher _ _ c hc (h.publisher o c hcap))
      · rw [execute_of_failed x _ (Option.isSome_iff_ne_none.mpr hok)]
        exact hfront
  have hagenda := agenda_eq_taskQueue (e := e') h.right.replayers slot
  rw [runSlot, hagenda]
  exact hserved _ [] (append_nil _).symm

end Compared

theorem runSlot_unbounded (hself : ∀ o, ∀ c ∈ (e.contracts o).publishes, cap o c = none)
    (h : e.unbounded.Independent) (hbounded : e.router.Bounded cap) (hslot : slot ≤ uint64Max)
    (hnone : (e.runSlot slot).router.RefusesNone) :
    e.unbounded.runSlot slot = (e.runSlot slot).unbounded := by
  have hagenda := agenda_eq_taskQueue (e := e) h.replayers slot
  have hagenda' : e.unbounded.agenda slot = e.agenda slot := rfl
  rw [runSlot, hagenda']
  rw [runSlot, hagenda] at hnone ⊢
  exact foldl_execute_unbounded (e := e.openSlot slot) hself
    (h.openSlot_valid hslot).opened (hbounded.of_routes rfl) hnone

theorem Scheduled.of_unbounded (h : e.unbounded.Scheduled) : e.Scheduled :=
  ⟨h.duration_le, h.period_pos, h.next_lt, h.replay_duration, h.current, h.task_index,
    h.replay_index⟩

theorem Postponed.runSlot {owner : String} (h : Postponed owner e e') (hs : e.Scheduled)
    (hs' : e'.Scheduled) (hf : (e.runSlot slot).failure = none)
    (hf' : (e'.runSlot slot).failure = none) :
    Postponed owner (e.runSlot slot) (e'.runSlot slot) := by
  -- a Slot changes neither owners nor the order of Tasks
  have hplace : ∀ (e : Engine σ), e.Scheduled → (e.runSlot slot).failure = none →
      ∀ t ∈ (e.runSlot slot).tasks, ∃ t₀ ∈ e.tasks, t.owner = t₀.owner ∧
        t.priority = t₀.priority ∧ t.registrationIndex = t₀.registrationIndex := by
    intro e hs hf t ht
    rw [runSlot_tasks hs hf] at ht
    obtain ⟨t₀, ht₀, rfl⟩ := mem_map.mp ht
    refine ⟨t₀, ht₀, ?_⟩
    split_ifs
    · simp only [Task.advance]
      split
      · exact ⟨rfl, rfl, rfl⟩
      · split_ifs <;> exact ⟨rfl, rfl, rfl⟩
    · exact ⟨rfl, rfl, rfl⟩
  intro p hp p' hp' hpo hpo' t ht t' ht' htt hbefore
  obtain ⟨p₀, hp₀, hpowner, hpp, hpi⟩ := hplace e hs hf p hp
  obtain ⟨p₀', hp₀', hpowner', hpp', hpi'⟩ := hplace e' hs' hf' p' hp'
  obtain ⟨t₀, ht₀, htowner, htp, hti⟩ := hplace e hs hf t ht
  obtain ⟨t₀', ht₀', htowner', htp', hti'⟩ := hplace e' hs' hf' t' ht'
  rw [Task.before_iff, htp, hpp, hti, hpi] at hbefore
  rw [Task.before_iff, htp', hpp', hti', hpi']
  exact h p₀ hp₀ p₀' hp₀' (hpowner ▸ hpo) (hpowner' ▸ hpo') t₀ ht₀ t₀' ht₀'
    (by rw [← htowner, ← htowner', htt]) hbefore

/-! ## Whole Runs -/

section Runs

variable {owner : String}

theorem Compared.runSlot (h : Compared cap owner e e') (hf : e.failure = none)
    (hf' : e'.failure = none) {slot : Nat} (hslot : slot ≤ uint64Max)
    (hnone : (e.runSlot slot).router.RefusesNone) :
    ((e.runSlot slot).failure = none ↔ (e'.runSlot slot).failure = none) ∧
      ((e.runSlot slot).failure = none →
        Compared cap owner (e.runSlot slot) (e'.runSlot slot)) := by
  have hself' : ∀ o, ∀ c ∈ (e'.contracts o).publishes, cap o c = none := by
    rw [← h.contracts]
    exact h.self
  have hnone' := h.runSlot_accepted hf hf' hslot hnone
  have hslotRun := runSlot_unbounded h.self h.left h.bounded hslot hnone
  have hslotRun' := runSlot_unbounded hself' h.right h.bounded' hslot hnone'
  have hforth : (e.runSlot slot).failure = none → (e'.runSlot slot).failure = none ∧
      (e.runSlot slot).unbounded.Alike (e'.runSlot slot).unbounded := by
    intro hok
    have hrun := h.alike.runSlot h.left h.right hf hf' hslot (hslotRun ▸ hok)
    rw [hslotRun, hslotRun'] at hrun
    exact hrun
  refine ⟨⟨fun hok => (hforth hok).1, fun hok' => ?_⟩, fun hok => ?_⟩
  · have hrun := h.alike.symm.runSlot h.right h.left hf' hf hslot (hslotRun' ▸ hok')
    rw [hslotRun] at hrun
    exact hrun.1
  · obtain ⟨hok', halike⟩ := hforth hok
    have hcontracts : (e.runSlot slot).contracts = e.contracts :=
      (foldl_execute_static (e.agenda slot) (e.openSlot slot)).2.1
    refine ⟨halike, ?_, ?_, ?_, ?_, hnone, hnone', ?_, ?_, ?_⟩
    · exact hslotRun ▸ h.left.runSlot hf hslot (hslotRun ▸ hok)
    · exact hslotRun' ▸ h.right.runSlot hf' hslot (hslotRun' ▸ hok')
    · exact h.bounded.steps (runSlot_steps false hslot (by simp))
    · exact h.bounded'.steps (runSlot_steps false hslot (by simp))
    · rw [hcontracts]
      exact h.self
    · rw [hcontracts]
      exact h.publisher
    · exact h.postponed.runSlot h.left.scheduled.of_unbounded h.right.scheduled.of_unbounded
        hok hok'

/-- The two Runs after the same number of Slots: neither refused a Message, and
they are in the same state or both failed in the Slot they opened last. -/
structure Abreast (cap : String → String → Option Nat) (owner : String) (e₀ e₀' e e' : Engine σ) :
    Prop where
  left : Loop.Reach step e₀ e
  right : Loop.Reach step e₀' e'
  accepted : e'.router.RefusesNone
  related : (e.failure = none ∧ e'.failure = none ∧ Compared cap owner e e') ∨
      (e.failure ≠ none ∧ e'.failure ≠ none ∧ e.slots = e'.slots ∧
        ∃ b b', Loop.Reach step e₀ b ∧ Loop.Reach step e₀' b' ∧
          b.step = some e ∧ b'.step = some e' ∧ b.unbounded.Alike b'.unbounded)

theorem Abreast.step {e₀ e₀' e e' : Engine σ} (h : Abreast cap owner e₀ e₀' e e')
    (hnone : ∀ a, Loop.Reach Engine.step e₀ a → a.router.RefusesNone) :
    (e.step = none ∧ e'.step = none) ∨
      ∃ a a', e.step = some a ∧ e'.step = some a' ∧ Abreast cap owner e₀ e₀' a a' := by
  obtain ⟨hleft, hright, _, ⟨hf, hf', hcompared⟩ | ⟨hf, hf', _⟩⟩ := h
  · have hsloteq : e.slot = e'.slot := slot_eq_of_perm hcompared.alike.tasks
      hcompared.left.replayers hcompared.right.replayers
    refine (ended_or_runSlot hf hf' hsloteq).imp_right ?_
    rintro ⟨hstep, hstep'⟩
    have hle := e.slot_le_max
    have hslotNone := hnone _ (.tail hleft hstep)
    have haccepted := hcompared.runSlot_accepted hf hf' hle hslotNone
    obtain ⟨hiff, hnext⟩ := hcompared.runSlot hf hf' hle hslotNone
    refine ⟨_, _, hstep, hstep', .tail hleft hstep, .tail hright hstep', haccepted, ?_⟩
    by_cases hok : (e.runSlot e.slot).failure = none
    · exact .inl ⟨hok, hiff.mp hok, hnext hok⟩
    · refine .inr ⟨hok, fun hok' => hok (hiff.mpr hok'), ?_, e, e', hleft, hright, hstep,
        hstep', hcompared.alike⟩
      have hslots : e.slots = e'.slots := hcompared.alike.slots
      rw [runSlot_slots, runSlot_slots, hslots]
  · exact .inl ⟨step_of_failure hf, step_of_failure hf'⟩

theorem loop_abreast (hf : e.failure = none) (hf' : e'.failure = none) (h : Compared cap owner e e')
    (hnone : e.loop.router.RefusesNone) : Abreast cap owner e e' e.loop e'.loop := by
  have hs := h.left.scheduled.of_unbounded
  have hall : ∀ a, Loop.Reach Engine.step e a → a.router.RefusesNone := fun a ha =>
    hnone.of_trace (reach_steps false
      (ha.to_halted (loop_reach e) (loop_halted hs)) (by simp)).trace_le
  have hstart : Abreast cap owner e e' e e' :=
    ⟨.refl, .refl, h.accepted', .inl ⟨hf, hf', h⟩⟩
  exact Loop.run_lockstep_halted (fun _ _ hr => hr.step hall) hstart (loop_halted hs)
    (loop_halted h.right.scheduled.of_unbounded)

end Runs

/-! ## Exchanging two Tasks -/

/-- The engine with the priorities of two Tasks exchanged. -/
def swapPriorities (e : Engine σ) (p s : Task σ) : Engine σ :=
  { e with tasks := e.tasks.map fun t =>
      if t.registrationIndex = p.registrationIndex then { t with priority := s.priority }
      else if t.registrationIndex = s.registrationIndex then
        { t with priority := p.priority }
      else t }

section Swap

variable {p s : Task σ}

theorem mem_swapPriorities {t' : Task σ} (h : t' ∈ (e.swapPriorities p s).tasks) :
    ∃ t ∈ e.tasks, t' =
      if t.registrationIndex = p.registrationIndex then { t with priority := s.priority }
      else if t.registrationIndex = s.registrationIndex then
        { t with priority := p.priority }
      else t := by
  obtain ⟨t, ht, rfl⟩ := mem_map.mp h
  exact ⟨t, ht, rfl⟩

theorem swapPriorities_map {β : Type v} {f : Task σ → β}
    (hf : ∀ (t : Task σ) priority, f { t with priority := priority } = f t) :
    (e.swapPriorities p s).tasks.map f = e.tasks.map f := by
  rw [swapPriorities, map_map]
  apply map_congr_left
  intro t _
  simp only [Function.comp_apply]
  split_ifs
  · exact hf t _
  · exact hf t _
  · rfl

theorem swapPriorities_reassigned (h : (e.tasks.map Task.registrationIndex).Nodup) :
    Reassigned e (e.swapPriorities p s) := by
  refine ⟨⟨rfl, rfl, rfl, rfl, rfl⟩, ?_, ?_, rfl, rfl, rfl, rfl⟩
  · rw [swapPriorities_map fun _ _ => rfl]
  · rw [swapPriorities_map fun _ _ => rfl]
    exact h

/-- The Task that ran first is postponed. -/
theorem swapPriorities_postponed (hindex : (e.tasks.map Task.registrationIndex).Nodup)
    (howners : (e.tasks.map Task.owner).Nodup) (hp : p ∈ e.tasks) (hs : s ∈ e.tasks)
    (hfirst : p.priority < s.priority) : Postponed p.owner e (e.swapPriorities p s) := by
  have howner : ∀ t' ∈ (e.swapPriorities p s).tasks, ∀ t ∈ e.tasks, t'.owner = t.owner →
      t' = if t.registrationIndex = p.registrationIndex then { t with priority := s.priority }
        else if t.registrationIndex = s.registrationIndex then
          { t with priority := p.priority }
        else t := by
    intro t' ht' t ht howner
    obtain ⟨t₀, ht₀, rfl⟩ := mem_swapPriorities ht'
    have ht₀t : t₀ = t := by
      refine inj_on_of_nodup_map howners ht₀ ht ?_
      rw [← howner]
      split_ifs <;> rfl
    rw [ht₀t]
  intro q hq q' hq' hqo hqo' t ht t' ht' htt hbefore
  obtain rfl : q = p := inj_on_of_nodup_map howners hq hp hqo
  have hq₁ := howner q' hq' q hp hqo'
  have ht₁ := howner t' ht' t ht htt
  rw [if_pos rfl] at hq₁
  rw [Task.before_iff] at hbefore ⊢
  by_cases htp : t.registrationIndex = q.registrationIndex
  · obtain rfl : t = q := inj_on_of_nodup_map hindex ht hp htp
    rw [if_pos rfl] at ht₁
    rw [hq₁, ht₁]
    exact .inr ⟨rfl, le_rfl⟩
  · have hts : t.registrationIndex ≠ s.registrationIndex := by
      intro hts
      obtain rfl : t = s := inj_on_of_nodup_map hindex ht hs hts
      omega
    rw [if_neg htp, if_neg hts] at ht₁
    rw [hq₁, ht₁]
    left
    show t.priority < s.priority
    omega

end Swap

end Engine

/-- No Channel has same-Slot feedthrough, and every participant depends on its
state, the time and what it takes from each route. -/
structure Manifest.Delayed (m : Manifest σ) : Prop where
  latency : ∀ c ∈ m.channels, c.latencyNs ≠ some 0
  routewise : ∀ p ∈ m.participants, ∀ t ∈ p.tasks m.durationNs, t.fn.Routewise

namespace Engine

variable {e : Engine σ}

/-- The engine of a Manifest with bounded routes, without the capacities. -/
theorem setup_unbounded_independent {m : Manifest σ} (hloaded : m.Loaded) (hdelayed : m.Delayed)
    (hone : ∀ p ∈ m.participants, (p.tasks m.durationNs).length = 1) (hsetup : setup m = some e) :
    e.unbounded.Independent := by
  obtain ⟨hsched, _⟩ := setup_filling hloaded.duration_le hsetup
  obtain ⟨hpublisher, howners, hroutewise, hreplayers⟩ :=
    setup_single hloaded hdelayed.routewise hone hsetup
  refine ⟨⟨hsched.duration_le, hsched.period_pos, hsched.next_lt, hsched.replay_duration,
    hsched.current, hsched.task_index, hsched.replay_index⟩,
    ⟨⟨fun _ _ => rfl, ?_, ?_⟩, hpublisher, fun c hc => hc⟩, howners, hroutewise, hreplayers⟩
  · intro o c
    have hroute : e.router.routes = m.route :=
      congrArg Router.routes (setup_sameBase hsetup).router
    show (e.router.routes o c).latencyNs ≠ some 0
    rw [hroute]
    exact Manifest.route_latency hdelayed.latency o c
  · have hnow : e.router.nowNs = 0 := congrArg Router.nowNs (setup_sameBase hsetup).router
    show e.router.nowNs ≤ uint64Max
    rw [hnow]
    exact Nat.zero_le _

theorem unbounded_reassigned {e e' : Engine σ} (h : Reassigned e e') :
    Reassigned e.unbounded e'.unbounded :=
  ⟨⟨h.base.durationNs, h.base.contracts, h.base.limits,
      congrArg Router.unbounded h.base.router, h.base.states⟩,
    h.tasks, h.indices, h.replayers, h.processes, h.failure, h.slots⟩

theorem setup_compared {m : Manifest σ} {p s : Task σ} (hloaded : m.Loaded) (hdelayed : m.Delayed)
    (hone : ∀ p ∈ m.participants, (p.tasks m.durationNs).length = 1) (hsetup : setup m = some e)
    (hp : p ∈ e.tasks) (hs : s ∈ e.tasks) (hfirst : p.priority < s.priority)
    (hbounded : ∀ o c, (m.route o c).capacity ≠ none →
      o ≠ p.owner ∧ c ∈ (m.contract p.owner).publishes) :
    Compared (fun o c => (m.route o c).capacity) p.owner e (e.swapPriorities p s) := by
  have hi := setup_unbounded_independent hloaded hdelayed hone hsetup
  have hbase := setup_sameBase hsetup
  have hcontracts : e.contracts = m.contract := hbase.contracts
  have hreassigned := swapPriorities_reassigned (p := p) (s := s) hi.scheduled.task_index
  have hrouter : e.router = m.router := hbase.router
  have hstart : e.router.Bounded fun o c => (m.route o c).capacity := by
    rw [hrouter]
    refine ⟨fun o c => rfl, fun o c k _ => ?_⟩
    rcases m.route_cases o c with hroute | ⟨_, _, s, _, hroute⟩
    · have hdepth := congrArg SubscriberRoute.depth hroute
      exact hdepth.le.trans (Nat.zero_le k)
    · have hdepth := congrArg SubscriberRoute.depth hroute
      exact hdepth.le.trans (Nat.zero_le k)
  have haccepted : e.router.RefusesNone := by
    rw [hrouter]
    exact fun o c m => List.not_mem_nil
  refine ⟨(unbounded_reassigned hreassigned).alike, hi,
    (unbounded_reassigned hreassigned).independent hi, hstart, hstart, haccepted, haccepted,
    fun o c hc => ?_, fun o c hcap => ?_,
    swapPriorities_postponed hi.scheduled.task_index hi.owners hp hs hfirst⟩
  · by_contra hcap
    obtain ⟨hne, hc'⟩ := hbounded o c hcap
    rw [← hcontracts] at hc'
    exact hne (hi.valid.one_publisher o p.owner c hc hc')
  · rw [hcontracts]
    exact (hbounded o c hcap).2

theorem completes_of_unbounded_alike {e e' : Engine σ}
    (h : e.loop.unbounded.Alike e'.loop.unbounded) (hok : e'.loop.failure = none)
    (hcomplete : e.Completes) : e'.Completes :=
  completes_of_same_ends (fun o => (h.view (some o)).2.2.1) h.processes hok hcomplete

/-- Exchanging the priorities of a publisher that runs first and of another
Task, where all bounded routes are on Channels of the publisher and lead to
others.  If the Run refuses no Message, neither does the Run with the
priorities exchanged, under every capacity and policy: no route overflows in
either.  Then one Run completes exactly if the other does.  If no participant
fails in the loop, all observations are the same; if one fails, both Runs
opened the same Slots, and up to the last one all observations are the same. -/
theorem postponed_publisher_order_independence (m : Manifest σ) (e : Engine σ) (p s : Task σ)
    (hloaded : m.Loaded) (hdelayed : m.Delayed)
    (hone : ∀ p ∈ m.participants, (p.tasks m.durationNs).length = 1) (hsetup : setup m = some e)
    (hp : p ∈ e.tasks) (hs : s ∈ e.tasks) (hfirst : p.priority < s.priority)
    (hbounded : ∀ o c, (m.route o c).capacity ≠ none →
      o ≠ p.owner ∧ c ∈ (m.contract p.owner).publishes) (hnone : e.run.router.RefusesNone) :
    (e.swapPriorities p s).run.router.RefusesNone ∧
      (e.Completes ↔ (e.swapPriorities p s).Completes) ∧
      (e.loop.failure = none → (e.swapPriorities p s).loop.failure = none ∧
          e.run.router.SameObservations (e.swapPriorities p s).run.router) ∧
      (e.loop.failure ≠ none → (e.swapPriorities p s).loop.failure ≠ none ∧
        e.run.slots = (e.swapPriorities p s).run.slots ∧
        ∃ b b', Loop.Reach step e b ∧ Loop.Reach step (e.swapPriorities p s) b' ∧
          b.step = some e.loop ∧ b'.step = some (e.swapPriorities p s).loop ∧
          b.router.SameObservations b'.router) := by
  have hf : e.failure = none := (setup_filling hloaded.duration_le hsetup).failure_none
  have hcompared := setup_compared hloaded hdelayed hone hsetup hp hs hfirst hbounded
  rw [run_router] at hnone
  have hf' : (e.swapPriorities p s).failure = none := hf
  have habreast := loop_abreast hf hf' hcompared hnone
  rw [run_router, run_router]
  rcases habreast.related with ⟨hok, hok', hends⟩ |
    ⟨hfail, hfail', hslots, b, b', hb, hb', hstep, hstep', halike⟩
  · refine ⟨habreast.accepted, ⟨completes_of_unbounded_alike hends.alike hok',
      completes_of_unbounded_alike hends.alike.symm hok⟩, fun _ => ⟨hok', ?_⟩,
      fun hne => absurd hok hne⟩
    have hsame := hends.alike.sameObservations
    exact ⟨hsame.intake, hsame.recorded⟩
  · refine ⟨habreast.accepted, iff_of_false (fun h => ?_) (fun h => ?_),
      fun h => absurd h hfail, fun _ => ⟨hfail', ?_, b, b', hb, hb', hstep, hstep', ?_⟩⟩
    · exact hfail ((completes_iff e).mp h).1
    · exact hfail' ((completes_iff _).mp h).1
    · exact (shutdown_slots e.loop).trans (hslots.trans (shutdown_slots _).symm)
    · have hsame := halike.sameObservations
      exact ⟨hsame.intake, hsame.recorded⟩

/-- A sensor and a display of the same period on a route of a given capacity.
The sensor runs first. -/
def queueManifest (capacity : Nat) (overflow : OverflowPolicy) : Manifest Unit where
  durationNs := 25
  channels := [⟨"speed", "byte", 1, none, ⟨25, []⟩⟩]
  participants :=
    [⟨"sensor", .native [] ["speed"]
        [⟨"sample", 10, 0, 0, fun now _ => .publish "speed" [UInt8.ofNat now] fun _ => .ret ()⟩]⟩,
      ⟨"display", .native [⟨"speed", some capacity, overflow⟩] []
        [⟨"show", 10, 0, 1, fun _ _ => .take "speed" fun _ => .ret ()⟩]⟩]
  initial := fun _ => ()
  limits := {}

theorem queueManifest_bounded (capacity : Nat) (overflow : OverflowPolicy) (o c : String)
    (h : ((queueManifest capacity overflow).route o c).capacity ≠ none) :
    o = "display" ∧ c = "speed" := by
  by_cases ho : o = "display"
  · subst ho
    by_cases hc : c = "speed"
    · exact ⟨rfl, hc⟩
    · simp [Manifest.route, queueManifest, ParticipantSpec.subscribes, Ne.symm hc] at h
  · by_cases ho' : o = "sensor"
    · subst ho'
      simp [Manifest.route, queueManifest, ParticipantSpec.subscribes] at h
    · simp [Manifest.route, queueManifest, Ne.symm ho, Ne.symm ho'] at h

theorem queueManifest_delayed (capacity : Nat) (overflow : OverflowPolicy) :
    (queueManifest capacity overflow).Delayed := by
  refine ⟨by simp [queueManifest], ?_⟩
  intro p hp t ht
  simp only [queueManifest, List.mem_cons, List.not_mem_nil, or_false] at hp
  rcases hp with rfl | rfl
  · rw [show t = _ from List.mem_singleton.mp ht]
    trivial
  · rw [show t = _ from List.mem_singleton.mp ht]
    trivial

theorem postponed_publisher_order_independence_queue :
    ∃ e p s, setup (queueManifest 2 .fail) = some e ∧ e.tasks = [p, s] ∧
      e.run.router.RefusesNone ∧ (e.swapPriorities p s).run.router.RefusesNone ∧
      e.run.router.intake "display" "speed" =
        [.activated 0, .activated 10, .took (0, [0]), .activated 20, .took (10, [10])] ∧
      e.run.router.SameObservations (e.swapPriorities p s).run.router := by
  have hloaded : (queueManifest 2 .fail).Loaded :=
    ⟨by decide, by decide, by decide, by decide, by decide, by decide⟩
  have hone : ∀ p ∈ (queueManifest 2 .fail).participants,
      (p.tasks (queueManifest 2 .fail).durationNs).length = 1 := by decide
  have hbounded : ∀ o c, ((queueManifest 2 .fail).route o c).capacity ≠ none →
      o ≠ "sensor" ∧ c ∈ ((queueManifest 2 .fail).contract "sensor").publishes := by
    intro o c h
    obtain ⟨rfl, rfl⟩ := queueManifest_bounded 2 .fail o c h
    decide
  refine ⟨_, _, _, rfl, rfl, by decide +kernel, ?_⟩
  obtain ⟨hnone, _, hsame, _⟩ := postponed_publisher_order_independence
    (queueManifest 2 .fail) _ _ _ hloaded (queueManifest_delayed 2 .fail) hone rfl
    List.mem_cons_self (List.mem_cons_of_mem _ List.mem_cons_self) (by decide) hbounded
    (by decide +kernel)
  exact ⟨hnone, by decide +kernel, (hsame (by decide +kernel)).2⟩

/-- At capacity 1 the order decides.  With the sensor first the Message of the
first Slot is still there when the second one is published: the Run fails, or
the display misses a Message.  With the display first nothing is refused. -/
theorem full_route_shows_order :
    ∃ e d p s q t, setup (queueManifest 1 .fail) = some e ∧ e.tasks = [p, s] ∧
      setup (queueManifest 1 .dropNewest) = some d ∧ d.tasks = [q, t] ∧
      e.run.failure ≠ none ∧ (e.swapPriorities p s).Completes ∧
      d.run.router.intake "display" "speed" =
        [.activated 0, .activated 10, .took (0, [0]), .activated 20] ∧
      (d.swapPriorities q t).run.router.intake "display" "speed" =
        [.activated 0, .activated 10, .took (0, [0]), .activated 20, .took (10, [10])] := by
  refine ⟨_, _, _, _, _, _, rfl, rfl, rfl, rfl, by decide +kernel, by decide +kernel,
    by decide +kernel, by decide +kernel⟩

end Engine

end SilFormal.Kernel
