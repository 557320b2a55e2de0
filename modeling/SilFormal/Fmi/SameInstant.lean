import SilFormal.Fmi.Settling
import SilFormal.Library.Fallible

/-!
# The order in which the work of one instant is served

`_Group._deliver_same_instant` takes an item out of the middle of its work.
Applied until no work is left, it serves the items of nodes in their order and
then hands a bus simulation everything it is owed in one event.  What the bus
is handed depends on the order of the payloads of each terminal only.
-/

namespace SilFormal.Fmi.Group

open List

variable {I T : Type} {σ ε : I → Type} {work : List (Pending I T)}

theorem firstNode_eq_none {g : Group I T σ ε} (h : g.firstNode work = none) :
    ∀ item ∈ work, (g.member (g.owner item)).busSimulation = true := by
  induction work with
  | nil => simp
  | cons item work ih =>
    rw [firstNode] at h
    split at h
    · rename_i hbus
      exact forall_mem_cons.mpr ⟨hbus, ih (Option.map_eq_none_iff.mp h)⟩
    · cases h

/-! ## What the bus is handed -/

/-- One buffer for each terminal, and none without a part. -/
structure Buffers (combined : List (T × List (Option Nat × Bytes))) : Prop where
  nodup : (combined.map (·.1)).Nodup
  nonempty : ∀ p ∈ combined, p.2 ≠ []

variable [DecidableEq T]

theorem Buffers.extend {combined : List (T × List (Option Nat × Bytes))} (h : Buffers combined)
    (p : T × Option Nat × Bytes) : Buffers (Group.extend combined p) := by
  refine ⟨nodup_keys_extend p h.nodup, ?_⟩
  replace h := h.nonempty
  induction combined with
  | nil => simp [Group.extend]
  | cons entry combined ih =>
    obtain ⟨hentry, hrest⟩ := forall_mem_cons.mp h
    rw [Group.extend]
    split
    · exact forall_mem_cons.mpr ⟨by simp, hrest⟩
    · exact forall_mem_cons.mpr ⟨hentry, ih hrest⟩

theorem buffers_combine (items : List (Pending I T)) : Buffers (combine items) := by
  have hfold : ∀ (parts : List (T × Option Nat × Bytes)) combined, Buffers combined →
      Buffers (parts.foldl Group.extend combined) := by
    intro parts
    induction parts with
    | nil => exact fun _ h => h
    | cons p parts ih => exact fun combined h => ih _ (h.extend p)
  exact hfold _ [] ⟨nodup_nil, by simp⟩

/-- The buffer of a terminal holds what it is owed, in its order. -/
theorem eq_partsTo_of_mem_combine {items : List (Pending I T)} {p : T × List (Option Nat × Bytes)}
    (hp : p ∈ combine items) : p.2 = partsTo p.1 items := by
  have hnodup := (buffers_combine items).nodup
  rw [← combinedTo_combine, combinedTo]
  obtain ⟨before, after, heq⟩ := append_of_mem hp
  rw [heq] at hnodup ⊢
  rw [map_append, map_cons, nodup_append, nodup_cons] at hnodup
  have hbefore : combinedTo p.1 before = [] := combinedTo_eq_nil fun hmem =>
    hnodup.2.2 _ hmem _ mem_cons_self rfl
  have hafter : combinedTo p.1 after = [] := combinedTo_eq_nil hnodup.2.1.1
  simp only [combinedTo] at hbefore hafter
  simp [hbefore, hafter]

theorem combine_eq (items : List (Pending I T)) :
    combine items = ((combine items).map (·.1)).map fun x => (x, partsTo x items) := by
  rw [map_map]
  conv_lhs => rw [← map_id (combine items)]
  refine map_congr_left fun p hp => ?_
  exact Prod.ext rfl (eq_partsTo_of_mem_combine hp)

/-- A terminal is handed one buffer, if it is owed anything. -/
theorem mem_keys_combine (x : T) (items : List (Pending I T)) :
    x ∈ (combine items).map (·.1) ↔ partsTo x items ≠ [] := by
  constructor
  · intro hx
    obtain ⟨p, hp, rfl⟩ := mem_map.mp hx
    rw [← eq_partsTo_of_mem_combine hp]
    exact (buffers_combine items).nonempty p hp
  · intro hne
    by_contra hnot
    rw [← combinedTo_combine, combinedTo_eq_nil hnot] at hne
    exact hne rfl

/-! ## Serving an instant -/

variable [DecidableEq I]

section Programs

variable (g : Group I T σ ε) (instant : Int)

/-- `_deliver_same_instant` and the event of the instance it names, until no
work is left, for events that produce no work: the instances in the order of
their events, with what each produced. -/
def serve : Nat → List (Pending I T) → Drive I T σ ε (List (I × List (T × Bytes)))
  | 0, _ => pure []
  | _ + 1, [] => pure []
  | left + 1, first :: others => do
      let (i, remaining) ← g.deliverSameInstant instant first others
      let produced ← g.handle i instant
      let later ← serve left remaining
      pure ((i, produced) :: later)

/-- The item of a node, served by itself. -/
def serveNode (item : Pending I T) : Drive I T σ ε (I × List (T × Bytes)) := do
  forM (part item).toList fun p => g.handOver instant p.1 [p.2]
  let produced ← g.handle (g.owner item) instant
  pure (g.owner item, produced)

/-- What a bus simulation is handed before its event. -/
def offer (items : List (Pending I T)) : Drive I T σ ε Unit :=
  forM (combine items) fun p => g.handOver instant p.1 p.2

/-- All items of a bus simulation, served in one event. -/
def serveBus (b : I) (items : List (Pending I T)) : Drive I T σ ε (List (I × List (T × Bytes))) :=
  if items = [] then pure []
  else do
    g.offer instant items
    let produced ← g.handle b instant
    pure [(b, produced)]

/-- The work of nodes, in its order. -/
def nodeWork (b : I) (work : List (Pending I T)) : List (Pending I T) :=
  work.filter fun item => ¬ g.owner item = b

/-- The work of the bus simulation, in its order. -/
def busWork (b : I) (work : List (Pending I T)) : List (Pending I T) :=
  work.filter fun item => g.owner item = b

end Programs

variable {g : Group I T σ ε} {b : I}

theorem serve_nil (instant : Int) (left : Nat) : g.serve instant left [] = pure [] := by
  cases left with
  | zero => rfl
  | succ left => rfl

/-- Work is served node by node in its order, and then the bus simulation in
one event, by induction on the length of the work. -/
theorem serve_eq (hbus : ∀ i, (g.member i).busSimulation = true ↔ i = b) (instant : Int)
    {left : Nat} (hleft : work.length ≤ left) :
    g.serve instant left work = (do
      let nodes ← (g.nodeWork b work).mapM (g.serveNode instant)
      let last ← g.serveBus instant b (g.busWork b work)
      pure (nodes ++ last)) := by
  induction left generalizing work with
  | zero =>
    obtain rfl := length_eq_zero_iff.mp (Nat.le_zero.mp hleft)
    rfl
  | succ left ih =>
    cases work with
    | nil => rfl
    | cons first others =>
      rw [serve, deliverSameInstant]
      cases hfirst : g.firstNode (first :: others) with
      | some found =>
        obtain ⟨owed, rest⟩ := found
        obtain ⟨before, after, hwork, rfl, hbefore, howed⟩ := g.firstNode_eq_some hfirst
        have hnode : ¬ g.owner owed = b := by
          intro heq
          rw [(hbus _).mpr heq] at howed
          cases howed
        have hlength := congrArg length hwork
        have hnone : before.filter (fun item => ¬ g.owner item = b) = [] := by
          rw [filter_eq_nil_iff]
          intro item hitem
          simpa using (hbus _).mp (hbefore item hitem)
        have hnodes : g.nodeWork b (first :: others) = owed :: g.nodeWork b (before ++ after) := by
          rw [hwork, nodeWork, nodeWork, filter_append, filter_append, hnone,
            filter_cons_of_pos (by simpa using hnode)]
          rfl
        have hrest : g.busWork b (first :: others) = g.busWork b (before ++ after) := by
          rw [hwork, busWork, busWork, filter_append, filter_append,
            filter_cons_of_neg (by simpa using hnode)]
        simp only [length_cons, length_append] at hlength hleft
        rw [hnodes, hrest, mapM_cons, serveNode]
        simp only [bind_assoc, pure_bind]
        rw [ih (by rw [length_append]; omega)]
        simp only [bind_assoc, pure_bind, cons_append]
      | none =>
        have hall := firstNode_eq_none hfirst
        have hmine : ∀ item ∈ first :: others, g.owner item = b := fun item hitem =>
          (hbus _).mp (hall item hitem)
        have hnodes : g.nodeWork b (first :: others) = [] := by
          rw [nodeWork, filter_eq_nil_iff]
          intro item hitem
          simpa using hmine item hitem
        have hbusWork : g.busWork b (first :: others) = first :: others := by
          rw [busWork, filter_eq_self]
          intro item hitem
          simpa using hmine item hitem
        have hremaining : (first :: others).filter (fun item => ¬ g.owner item = b) = [] :=
          hnodes
        have htaken : (first :: others).filter (fun item => g.owner item = b) =
            first :: others := hbusWork
        simp only [hmine first mem_cons_self, hremaining, htaken]
        rw [hnodes, hbusWork, serveBus, if_neg (cons_ne_nil _ _), mapM_nil]
        simp only [bind_assoc, pure_bind, serve_nil, offer, nil_append]

/-- An event does not read the history. -/
theorem handle_of_members {instant : Int} {i : I} {s t s₁ : State I T σ}
    {produced : List (T × Bytes)} (h : t.members = s.members)
    (hhandle : g.handle i instant s = .ok produced s₁) :
    ∃ t₁, g.handle i instant t = .ok produced t₁ ∧ t₁.members = s₁.members := by
  obtain ⟨_, _, hget, hhandle⟩ := bind_eq_ok_iff.mp hhandle
  cases hget
  obtain ⟨_, s₂, hmember, hhandle⟩ := bind_eq_ok_iff.mp hhandle
  cases hhandle
  rw [onMember, zoom_eq_ok_iff] at hmember
  obtain ⟨st, hst, rfl⟩ := hmember
  have hmember' : onMember i ((g.member i).handle instant) t = .ok produced (t.setMember i st) := by
    rw [onMember, zoom_eq_ok_iff, h]
    exact ⟨st, hst, rfl⟩
  refine ⟨_, (bind_of_ok rfl _).trans (bind_of_ok hmember' _), ?_⟩
  show Function.update t.members i st = Function.update s.members i st
  rw [h]

end SilFormal.Fmi.Group
