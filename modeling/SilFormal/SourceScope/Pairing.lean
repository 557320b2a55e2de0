import Mathlib

/-!
# Pairing scope records

`_pair` matches the entries and returns of scopes, with one stack for each
thread.  A return pairs with the nearest open frame of its scope, and the
frames above that one have no return.  Every record becomes exactly one end of
one call, paired or not.
-/

namespace SilFormal.SourceScope

open List

/-- `ENTRY` and `RETURN`. -/
inductive Edge
  | entry
  | ret
deriving DecidableEq, Repr

/-- A kept record of the raw file. -/
structure Record where
  ns : Nat
  tid : Nat
  scope : Nat
  edge : Edge
deriving DecidableEq, Repr

/-- The position and the time of a record. -/
structure End where
  index : Nat
  ns : Nat
deriving DecidableEq, Repr

/-- A `_Call` on a stack: its return is still to come. -/
structure Frame where
  tid : Nat
  scope : Nat
  entry : End
deriving DecidableEq, Repr

/-- A paired `_Call`. -/
structure Call where
  tid : Nat
  scope : Nat
  entry : End
  ret : End
deriving DecidableEq, Repr

/-- An unpaired edge. -/
inductive Unpaired
  | missingReturn (frame : Frame)
  | missingEntry (tid scope : Nat) (ret : End)
deriving DecidableEq, Repr

/-! ## The records a call is made of -/

/-- The record that opened a frame, with its position. -/
def Frame.opening (f : Frame) : Record × Nat :=
  ({ ns := f.entry.ns, tid := f.tid, scope := f.scope, edge := .entry }, f.entry.index)

/-- The two records of a call. -/
def Call.ends (c : Call) : List (Record × Nat) :=
  [({ ns := c.entry.ns, tid := c.tid, scope := c.scope, edge := .entry }, c.entry.index),
    ({ ns := c.ret.ns, tid := c.tid, scope := c.scope, edge := .ret }, c.ret.index)]

namespace Unpaired

/-- The record of an unpaired edge. -/
def edge : Unpaired → Record × Nat
  | missingReturn frame => frame.opening
  | missingEntry tid scope ret =>
    ({ ns := ret.ns, tid := tid, scope := scope, edge := .ret }, ret.index)

def tid (u : Unpaired) : Nat := u.edge.1.tid

def ns (u : Unpaired) : Nat := u.edge.1.ns

end Unpaired

/-! ## The stacks -/

/-- The stack of each thread, in the order of their first records.  The top of
a stack comes first. -/
abbrev Stacks := List (Nat × List Frame)

namespace Stacks

/-- `stacks.setdefault(tid, [])`, what it returns. -/
def get (s : Stacks) (tid : Nat) : List Frame :=
  match s with
  | [] => []
  | (t, stack) :: rest => if t = tid then stack else get rest tid

/-- The stack of one thread, replaced. -/
def set (s : Stacks) (tid : Nat) (stack : List Frame) : Stacks :=
  match s with
  | [] => [(tid, stack)]
  | (t, old) :: rest => if t = tid then (t, stack) :: rest else (t, old) :: set rest tid stack

/-- The frames of all threads. -/
def frames (s : Stacks) : List Frame :=
  s.flatMap (·.2)

theorem frames_set (s : Stacks) (tid : Nat) (stack : List Frame) :
    ((s.set tid stack).frames ++ s.get tid).Perm (s.frames ++ stack) := by
  induction s with
  | nil => simp [set, get, frames]
  | cons entry rest ih =>
    obtain ⟨t, old⟩ := entry
    rw [set, get]
    split
    · simp only [frames, flatMap_cons]
      rw [perm_iff_count]
      intro f
      simp only [count_append]
      omega
    · simp only [frames, flatMap_cons, append_assoc] at ih ⊢
      exact ih.append_left old

end Stacks

/-! ## The loop -/

/-- The loop of `_pair`. -/
structure Pairs where
  threads : Stacks := []
  paired : List Call := []
  unpaired : List Unpaired := []

/-- One record of the loop of `_pair`. -/
def Pairs.step (s : Pairs) (item : Record × Nat) : Pairs :=
  let (r, index) := item
  let stack := s.threads.get r.tid
  match r.edge with
  | .entry =>
    let frame : Frame := { tid := r.tid, scope := r.scope, entry := ⟨index, r.ns⟩ }
    { s with threads := s.threads.set r.tid (frame :: stack) }
  | .ret =>
    match stack.dropWhile fun f => f.scope ≠ r.scope with
    | [] =>
      { s with
        threads := s.threads.set r.tid stack
        unpaired := s.unpaired ++ [.missingEntry r.tid r.scope ⟨index, r.ns⟩] }
    | frame :: below =>
      { threads := s.threads.set r.tid below
        paired := s.paired ++
          [{ tid := frame.tid, scope := frame.scope, entry := frame.entry, ret := ⟨index, r.ns⟩ }]
        unpaired := s.unpaired ++
          ((stack.takeWhile fun f => f.scope ≠ r.scope).reverse).map .missingReturn }

/-- What is left on the stacks at the end. -/
def Stacks.left (s : Stacks) : List Unpaired :=
  s.flatMap fun p => p.2.reverse.map .missingReturn

/-- `_pair`: paired calls and unpaired edges. -/
def pair (records : List Record) : List Call × List Unpaired :=
  let s := records.zipIdx.foldl Pairs.step {}
  (s.paired, s.unpaired ++ s.threads.left)

/-! ## Every record is one end of one call -/

namespace Pairs

/-- The records in the loop, in the calls and on the stacks. -/
def ends (s : Pairs) : List (Record × Nat) :=
  s.paired.flatMap Call.ends ++ s.unpaired.map Unpaired.edge ++ s.threads.frames.map Frame.opening

/-- The frames on a stack are of its thread. -/
def Threaded (s : Pairs) : Prop :=
  ∀ tid, ∀ f ∈ s.threads.get tid, f.tid = tid

end Pairs

theorem Stacks.get_set (s : Stacks) (tid t : Nat) (stack : List Frame) :
    (s.set tid stack).get t = if t = tid then stack else s.get t := by
  induction s with
  | nil =>
    rw [set, get, get, get]
    simp [eq_comm]
  | cons entry rest ih =>
    obtain ⟨t', old⟩ := entry
    rw [set]
    by_cases ht' : t' = tid
    · subst ht'
      rw [if_pos rfl, get, get]
      by_cases ht : t' = t
      · simp [ht]
      · simp [ht, Ne.symm ht]
    · rw [if_neg ht', get, get, ih]
      by_cases ht : t' = t
      · subst ht
        simp [ht']
      · simp [ht]

namespace Pairs

variable {s : Pairs} {done : List (Record × Nat)} {r : Record} {index : Nat}

theorem Threaded.set {stack : List Frame} {tid : Nat} (h : s.Threaded)
    (hstack : ∀ f ∈ stack, f.tid = tid) {paired : List Call} {unpaired : List Unpaired} :
    Threaded { threads := s.threads.set tid stack, paired := paired, unpaired := unpaired } := by
  intro t f hf
  rw [Stacks.get_set] at hf
  split at hf
  · rename_i ht
    exact (hstack f hf).trans ht.symm
  · exact h t f hf

theorem stack_eq {stack below : List Frame} {frame : Frame} {scope : Nat}
    (h : stack.dropWhile (fun f => f.scope ≠ scope) = frame :: below) :
    frame.scope = scope ∧ stack = stack.takeWhile (fun f => f.scope ≠ scope) ++ frame :: below := by
  refine ⟨?_, ?_⟩
  · have hhead := head?_dropWhile_not (fun f : Frame => decide (f.scope ≠ scope)) stack
    rw [h] at hhead
    simpa using hhead
  · rw [← h]
    exact takeWhile_append_dropWhile.symm

/-- Exchanging one stack exchanges the records that opened its frames. -/
theorem count_set (s : Pairs) (tid : Nat) (stack : List Frame) (x : Record × Nat) :
    ((s.threads.set tid stack).frames.map Frame.opening).count x +
        ((s.threads.get tid).map Frame.opening).count x =
      (s.threads.frames.map Frame.opening).count x + (stack.map Frame.opening).count x := by
  have hperm := (s.threads.frames_set tid stack).map Frame.opening
  rw [map_append, map_append, perm_iff_count] at hperm
  simpa only [count_append] using hperm x

/-- A record becomes an end of a call, or a frame, and no other record is
lost. -/
theorem step_ends (h : s.Threaded) (item : Record × Nat) :
    (s.step item).Threaded ∧ (s.step item).ends.Perm (s.ends ++ [item]) := by
  obtain ⟨⟨ns, tid, scope, edge⟩, index⟩ := item
  rw [step]
  cases edge with
  | entry =>
    refine ⟨h.set fun f hf => ?_, ?_⟩
    · rcases mem_cons.mp hf with rfl | hf
      · rfl
      · exact h _ f hf
    · rw [perm_iff_count]
      intro x
      have hset := s.count_set tid
        ({ tid := tid, scope := scope, entry := ⟨index, ns⟩ } :: s.threads.get tid) x
      simp only [ends, map_cons, count_append, count_cons, count_nil, Frame.opening] at hset ⊢
      omega
  | ret =>
    simp only
    split
    · refine ⟨h.set (h tid), ?_⟩
      rw [perm_iff_count]
      intro x
      have hset := s.count_set tid (s.threads.get tid) x
      simp only [ends, map_append, count_append, map_cons, map_nil, Unpaired.edge] at hset ⊢
      omega
    · rename_i frame below hdrop
      obtain ⟨hscope, hstack⟩ := stack_eq hdrop
      have hmem : ∀ f ∈ frame :: below, f.tid = tid := fun f hf =>
        h tid f (hstack ▸ mem_append_right _ hf)
      obtain ⟨htid, hbelow⟩ := forall_mem_cons.mp hmem
      refine ⟨h.set hbelow, ?_⟩
      rw [perm_iff_count]
      intro x
      have hset := s.count_set tid below x
      rw [hstack] at hset
      have habove : (((s.threads.get tid).takeWhile fun f => f.scope ≠ scope).reverse.map
          Unpaired.missingReturn).map Unpaired.edge =
            (((s.threads.get tid).takeWhile fun f => f.scope ≠ scope).map
              Frame.opening).reverse := by
        rw [map_map, map_reverse]
        rfl
      simp only [ends, flatMap_append, flatMap_cons, flatMap_nil,
        map_append, map_cons, habove, count_append, count_reverse,
        count_cons, count_nil, Call.ends, Frame.opening, htid, hscope] at hset ⊢
      omega

theorem foldl_ends (h : s.Threaded) (items : List (Record × Nat)) :
    (items.foldl step s).ends.Perm (s.ends ++ items) := by
  induction items generalizing s with
  | nil => simp
  | cons item items ih =>
    obtain ⟨hthreaded, hends⟩ := step_ends h item
    refine (ih hthreaded).trans ?_
    simpa using hends.append_right items

end Pairs

theorem Stacks.left_edges (s : Stacks) :
    (s.left.map Unpaired.edge).Perm (s.frames.map Frame.opening) := by
  induction s with
  | nil => simp [left, frames]
  | cons entry rest ih =>
    simp only [left, frames, flatMap_cons, map_append, map_map] at ih ⊢
    refine List.Perm.append ?_ ih
    exact (reverse_perm entry.2).map Frame.opening

/-- Every record is one end of one paired call, or one unpaired edge. -/
theorem pair_perm (records : List Record) :
    ((pair records).1.flatMap Call.ends ++ (pair records).2.map Unpaired.edge).Perm
      records.zipIdx := by
  have hends := Pairs.foldl_ends (s := {}) (fun _ _ hf => absurd hf not_mem_nil) records.zipIdx
  refine List.Perm.trans ?_ hends
  rw [pair, map_append, ← append_assoc]
  exact (Stacks.left_edges _).append_left _

theorem mem_ends_or_edge {records : List Record} {item : Record × Nat} (h : item ∈ records.zipIdx) :
    (∃ c ∈ (pair records).1, item ∈ c.ends) ∨ ∃ u ∈ (pair records).2, u.edge = item := by
  rcases mem_append.mp ((pair_perm records).mem_iff.mpr h) with hmem | hmem
  · exact .inl (mem_flatMap.mp hmem)
  · exact .inr (mem_map.mp hmem)

theorem call_unique {records : List Record} {c c' : Call} (hc : c ∈ (pair records).1)
    (hc' : c' ∈ (pair records).1) {item item' : Record × Nat} (hitem : item ∈ c.ends)
    (hitem' : item' ∈ c'.ends) (hindex : item.2 = item'.2) : c = c' := by
  by_contra hne
  have hnodup : (((pair records).1.flatMap Call.ends).map (·.2)).Nodup := by
    have hperm := (pair_perm records).map (·.2)
    rw [map_append] at hperm
    exact List.Nodup.of_append_left (hperm.nodup_iff.mpr (nodup_zipIdx_map_snd records))
  rw [map_flatMap, nodup_flatMap] at hnodup
  have hsymm : Std.Symm (Function.onFun List.Disjoint fun c : Call => c.ends.map (·.2)) :=
    ⟨fun _ _ h _ ha hb => h hb ha⟩
  have hdisjoint := hnodup.2.forall hc hc' hne
  exact hdisjoint (mem_map_of_mem hitem) (hindex ▸ mem_map_of_mem hitem')

end SilFormal.SourceScope
