import SilFormal.Library.Digraph

/-!
# The order in which a Slot activates the FMUs

A Channel of Latency 0 delivers inside the publishing Slot, so its publisher
runs first.  The authored priorities are checked against these connections: a
depth-first search looks for a cycle, and without one every connection has to go
from a lower priority to a higher one.  An order that the connections allow is
named where the priorities do not give one.
-/

namespace SilFormal.Coupling

open SilFormal.Digraph List

variable {done order waiting : List String}

/-- A connection inside one Slot: publisher, subscriber and Channel. -/
abbrev Edge := String × String × String

/-! ## The document -/

structure Fmu where
  name : String
  priority : Int
  deriving DecidableEq, Repr

structure Channel where
  name : String
  publisher : String
  latencyNs : Int
  subscribers : List String
  deriving DecidableEq, Repr

/-- What the order reads of a coupling document.  `_document` refuses a
publisher or a subscriber that is no declared FMU. -/
structure Document where
  fmus : List Fmu
  channels : List Channel
  nodup : (fmus.map Fmu.name).Nodup
  publisher_declared : ∀ channel ∈ channels, channel.publisher ∈ fmus.map Fmu.name
  subscribers_declared : ∀ channel ∈ channels, ∀ name ∈ channel.subscribers,
    name ∈ fmus.map Fmu.name

namespace Document

def names (doc : Document) : List String :=
  doc.fmus.map Fmu.name

def priority (doc : Document) (name : String) : Int :=
  ((doc.fmus.find? fun fmu => fmu.name == name).map Fmu.priority).getD 0

end Document

/-- The order of tuples. -/
def edgeLe (a b : Edge) : Prop :=
  toLex (a.1, toLex (a.2.1, a.2.2)) ≤ toLex (b.1, toLex (b.2.1, b.2.2))

instance : DecidableRel edgeLe :=
  fun a b => inferInstanceAs
    (Decidable (toLex (a.1, toLex (a.2.1, a.2.2)) ≤ toLex (b.1, toLex (b.2.1, b.2.2))))

/-- Each zero-Latency route, as (publisher, subscriber, Channel). -/
def sameSlot (doc : Document) : List Edge :=
  ((doc.channels.filter fun channel => channel.latencyNs = 0).flatMap fun channel =>
    channel.subscribers.map fun subscriber =>
      (channel.publisher, subscriber, channel.name)).insertionSort edgeLe

/-! ## The search for a cycle -/

/-- The text of a loop: each FMU with the Channel it leaves by, and the first
FMU again. -/
def spell (loop : List (String × String)) (node : String) : String :=
  String.join (loop.map fun step => step.1 ++ " -[" ++ step.2 ++ "]-> ") ++ node

def successors (edges : List Edge) (node : String) : List (String × String) :=
  (edges.filter fun edge => edge.1 == node).map fun edge => edge.2

/-- What `if found` tests: neither `None` nor the empty text. -/
def truthy (found : Option String) : Bool :=
  found.any fun text => text != ""

/-- What a search found, with the nodes that are done after it. -/
abbrev Search := Option String × List String

section

variable {α : Type}

/-- The loop that returns the first thing found.  `none` is a search that went
deeper than the interpreter allows. -/
def firstFound (search : α → List String → Option Search) : List α → List String → Option Search
  | [], done => some (none, done)
  | item :: rest, done =>
    match search item done with
    | none => none
    | some (found, done) => if truthy found then some (found, done) else firstFound search rest done

end

/-- `visit` of `_cycle`, with the depth of calls that is left. -/
def visit (edges : List Edge) : Nat → String → List (String × String) → List String → Option Search
  | 0, _, _, _ => none
  | depth + 1, node, path, done =>
    let onPath := path.map Prod.fst
    if node ∈ onPath then
      some (some (spell (path.drop (onPath.idxOf node)) node), done)
    else if node ∈ done then
      some (none, done)
    else
      match firstFound
          (fun next done => visit edges depth next.1 (path ++ [(node, next.2)]) done)
          (successors edges node) done with
      | none => none
      | some (found, done) => if truthy found then some (found, done) else some (none, node :: done)

/-- The first cycle a depth-first search meets, spelled with its Channels. -/
def cycle (depth : Nat) (nodes : List String) (edges : List Edge) : Option (Option String) :=
  (firstFound (fun node done => visit edges depth node [] done) nodes []).map fun result =>
    if truthy result.1 then result.1 else none

/-! ## An order that the connections allow -/

/-- The FMUs that connect to one. -/
def publishersOf (edges : List Edge) (name : String) : List String :=
  (edges.filter fun edge => edge.2.1 == name).map Prod.fst

/-- The waiting FMUs whose publishers are all in the order. -/
def readyAfter (waiting : List (String × List String)) (order : List String) : List String :=
  (waiting.filter fun entry => entry.2.all (· ∈ order)).map Prod.fst

/-- Priorities, and names among equal ones. -/
instance priorityPreorder : Preorder (Int ×ₗ String) :=
  (Prod.Lex.instLinearOrder Int String).toPreorder

/-- The `while` loop of `_topological`, which removes one FMU in each turn.
`none` is the minimum of no FMU. -/
def topologicalLoop (priority : String → Int) :
    Nat → List (String × List String) → List String → Option (List String)
  | _, [], order => some order
  | 0, _ :: _, _ => none
  | turns + 1, waiting, order =>
    match (readyAfter waiting order).argmin fun name => toLex (priority name, name) with
    | none => none
    | some chosen =>
      topologicalLoop priority turns
        (waiting.filter fun entry => entry.1 != chosen) (order ++ [chosen])

def topological (priority : String → Int) (names : List String) (edges : List Edge) :
    Option (List String) :=
  topologicalLoop priority names.length
    (names.map fun name => (name, publishersOf edges name)) []

/-! ## The check of the priorities -/

/-- How the check of the order ends without one: it refuses the document, or the
interpreter stops it. -/
inductive OrderError
  | authoring (message : String)
  | recursionLimit
  | emptyMinimum
  deriving DecidableEq, Repr

section

-- How Python writes a name in a message.
variable (repr : String → String)

/-- The loop over `by_priority`. -/
def distinctPriorities (priority : String → Int) :
    List String → List (Int × String) → Except OrderError Unit
  | [], _ => .ok ()
  | name :: rest, byPriority =>
    match byPriority.lookup (priority name) with
    | none => distinctPriorities priority rest ((priority name, name) :: byPriority)
    | some other =>
      if other ≠ name then
        .error (.authoring ("FMUs " ++ repr other ++ " and " ++ repr name ++
          " both declare priority " ++ toString (priority name) ++
          "; each FMU states its own place in a Slot, so that no name decides the order"))
      else
        distinctPriorities priority rest byPriority

def cycleMessage (cycle : String) : String :=
  "the zero-Latency connections form a cycle: " ++ cycle ++ ". A Latency of 0 delivers " ++
    "inside the publishing Slot, so its publisher runs first, and a cycle has no first FMU. " ++
    "Declare a Latency above 0 on one of its Channels. This authoring profile checks the " ++
    "declared connections only"

def priorityMessage (priority : String → Int) (edge : Edge) (order : List String) : String :=
  "Channel " ++ repr edge.2.2 ++ " has Latency 0, so " ++ repr edge.1 ++ " (priority " ++
    toString (priority edge.1) ++ ") must run before " ++ repr edge.2.1 ++ " (priority " ++
    toString (priority edge.2.1) ++ ") in a Slot. Declare priorities in an order such as: " ++
    ", ".intercalate order

/-- The loop over the zero-Latency edges. -/
def prioritiesFollow (priority : String → Int) (names : List String) (edges : List Edge) :
    List Edge → Except OrderError Unit
  | [] => .ok ()
  | edge :: rest =>
    if priority edge.1 ≥ priority edge.2.1 then
      match topological priority names edges with
      | none => .error .emptyMinimum
      | some order => .error (.authoring (priorityMessage repr priority edge order))
    else
      prioritiesFollow priority names edges rest

/-- The FMUs in the order each Slot activates them. -/
def executionOrder (depth : Nat) (doc : Document) : Except OrderError (List String) :=
  let sorted := doc.names.insertionSort (· ≤ ·)
  let edges := sameSlot doc
  match distinctPriorities repr doc.priority sorted [] with
  | .error error => .error error
  | .ok _ =>
    match cycle depth sorted edges with
    | none => .error .recursionLimit
    | some (some text) => .error (.authoring (cycleMessage text))
    | some none =>
      match prioritiesFollow repr doc.priority doc.names edges edges with
      | .error error => .error error
      | .ok _ => .ok (doc.names.insertionSort fun a b => doc.priority a ≤ doc.priority b)

end

/-! ## The search finds a cycle if there is one -/

/-- The text of a cycle of declared connections. -/
def SpellsCycle (edges : List Edge) (text : String) : Prop :=
  ∃ node loop, loop ≠ [] ∧ Walk edges node loop node ∧ text = spell loop node

theorem spell_ne_empty {loop : List (String × String)} {node : String} (h : loop ≠ []) :
    spell loop node ≠ "" := by
  obtain ⟨step, rest, rfl⟩ := exists_cons_of_ne_nil h
  intro hempty
  have hlength := congrArg String.length hempty
  simp [spell] at hlength

theorem SpellsCycle.truthy {edges : List Edge} {text : String} (h : SpellsCycle edges text) :
    Coupling.truthy (some text) = true := by
  obtain ⟨node, loop, hne, -, rfl⟩ := h
  simp [Coupling.truthy, spell_ne_empty hne]

theorem mem_successors {edges : List Edge} {node next channel : String} :
    (next, channel) ∈ successors edges node ↔ (node, next, channel) ∈ edges := by
  simp [successors]

/-- Nodes that are done lead to done nodes only, and none is on the path. -/
structure Clear (edges : List Edge) (path : List (String × String)) (done : List String) :
    Prop where
  settled : Settled edges done
  apart : ∀ node ∈ done, node ∉ path.map Prod.fst

/-- How a search over `targets` ends: with a cycle, or with all of them done. -/
def Outcome (edges : List Edge) (path : List (String × String)) (targets done : List String)
    (result : Search) : Prop :=
  (∃ text, SpellsCycle edges text ∧ result.1 = some text) ∨
    (result.1 = none ∧ Clear edges path result.2 ∧ done ⊆ result.2 ∧ targets ⊆ result.2)

/-- A loop of searches that end well ends well. -/
theorem firstFound_outcome {α : Type} {edges : List Edge} {path : List (String × String)}
    {search : α → List String → Option Search} {target : α → String} {items : List α}
    (hsearch : ∀ item ∈ items, ∀ done, Clear edges path done →
      ∃ result, search item done = some result ∧ Outcome edges path [target item] done result)
    (hdone : Clear edges path done) :
    ∃ result, firstFound search items done = some result ∧
      Outcome edges path (items.map target) done result := by
  induction items generalizing done with
  | nil => exact ⟨_, rfl, .inr ⟨rfl, hdone, List.Subset.refl _, nil_subset _⟩⟩
  | cons item rest ih =>
    obtain ⟨⟨found, done'⟩, heq, houtcome⟩ := hsearch item (by simp) done hdone
    rcases houtcome with ⟨text, htext, hfound⟩ | ⟨hfound, hclear, hgrown, hitem⟩
    · cases hfound
      refine ⟨(some text, done'), ?_, .inl ⟨text, htext, rfl⟩⟩
      simp [firstFound, heq, htext.truthy]
    · cases hfound
      obtain ⟨result, hrest, houtcome⟩ :=
        ih (fun x hx => hsearch x (mem_cons_of_mem _ hx)) hclear
      refine ⟨result, by simpa [firstFound, heq, truthy] using hrest, ?_⟩
      rcases houtcome with hcycle | ⟨hnone, hclear', hgrown', htargets⟩
      · exact .inl hcycle
      · refine .inr ⟨hnone, hclear', List.Subset.trans hgrown hgrown', ?_⟩
        rw [map_cons, cons_subset]
        exact ⟨hgrown' (hitem (by simp)), htargets⟩

/-- The walk that the calls of `visit` under way have taken. -/
structure OnTheWay (nodes : List String) (edges : List Edge) (path : List (String × String))
    (node : String) : Prop where
  walk : ∃ start, Walk edges start path node
  nodup : (path.map Prod.fst).Nodup
  inside : path.map Prod.fst ⊆ nodes
  here : node ∈ nodes

namespace OnTheWay

variable {nodes : List String} {edges : List Edge} {path : List (String × String)} {node : String}

theorem length_le (h : OnTheWay nodes edges path node) : path.length ≤ nodes.length := by
  have hle := (h.nodup.subperm h.inside).length_le
  rwa [length_map] at hle

theorem step (hdeclared : ∀ edge ∈ edges, edge.2.1 ∈ nodes) (h : OnTheWay nodes edges path node)
    (hfresh : node ∉ path.map Prod.fst) {next channel : String}
    (hedge : (node, next, channel) ∈ edges) :
    OnTheWay nodes edges (path ++ [(node, channel)]) next := by
  obtain ⟨start, hwalk⟩ := h.walk
  refine ⟨⟨start, hwalk.append (.single hedge)⟩, ?_, ?_, hdeclared _ hedge⟩
  · rw [map_append, nodup_append]
    refine ⟨h.nodup, by simp, ?_⟩
    intro a ha b hb heq
    rw [map_cons, map_nil, mem_singleton] at hb
    rw [heq, hb] at ha
    exact hfresh ha
  · rw [map_append]
    exact append_subset.mpr ⟨h.inside, by simpa using h.here⟩

/-- A node that is on the path closes a cycle. -/
theorem spells (h : OnTheWay nodes edges path node) (hon : node ∈ path.map Prod.fst) :
    SpellsCycle edges (spell (path.drop ((path.map Prod.fst).idxOf node)) node) := by
  obtain ⟨start, hwalk⟩ := h.walk
  have hlt : (path.map Prod.fst).idxOf node < (path.map Prod.fst).length :=
    idxOf_lt_length_iff.mpr hon
  have hlt' : (path.map Prod.fst).idxOf node < path.length := by rwa [length_map] at hlt
  have hsplit := take_append_drop ((path.map Prod.fst).idxOf node) path
  rw [← hsplit] at hwalk
  obtain ⟨middle, -, hloop⟩ := hwalk.of_append
  have hdrop := drop_eq_getElem_cons hlt'
  have hmiddle : middle = node := by
    rw [hdrop] at hloop
    rw [hloop.head_eq, ← getElem_map Prod.fst (h := hlt), getElem_idxOf]
  subst hmiddle
  exact ⟨middle, _, by rw [hdrop]; exact cons_ne_nil _ _, hloop, rfl⟩

end OnTheWay

theorem Clear.of_longer {edges : List Edge} {path : List (String × String)} {step : String × String}
    (h : Clear edges (path ++ [step]) done) : Clear edges path done ∧ step.1 ∉ done := by
  refine ⟨⟨h.settled, fun v hv hon => h.apart v hv ?_⟩, fun hstep => h.apart step.1 hstep ?_⟩
  · exact map_append ▸ mem_append_left _ hon
  · simp

theorem Clear.longer {edges : List Edge} {path : List (String × String)} {step : String × String}
    (h : Clear edges path done) (hnew : step.1 ∉ done) : Clear edges (path ++ [step]) done := by
  refine ⟨h.settled, fun v hv hon => ?_⟩
  rw [map_append, mem_append] at hon
  rcases hon with hon | hon
  · exact h.apart v hv hon
  · rw [map_cons, map_nil, mem_singleton] at hon
    exact hnew (hon ▸ hv)

/-- A call of `visit` with calls enough left ends with a cycle, or with its node
done. -/
theorem visit_outcome {nodes : List String} {edges : List Edge}
    (hdeclared : ∀ edge ∈ edges, edge.2.1 ∈ nodes) (depth : Nat) {path : List (String × String)}
    {node : String} (hway : OnTheWay nodes edges path node) (hclear : Clear edges path done)
    (hdepth : nodes.length < depth + path.length) :
    ∃ result, visit edges depth node path done = some result ∧
      Outcome edges path [node] done result := by
  -- The path grows by one node with each call and never holds a node twice.
  induction depth generalizing path node done with
  | zero =>
    have hle := hway.length_le
    omega
  | succ depth ih =>
    by_cases hon : node ∈ path.map Prod.fst
    · refine ⟨(some (spell (path.drop ((path.map Prod.fst).idxOf node)) node), done), ?_, ?_⟩
      · simp only [visit, hon, if_true]
      · exact .inl ⟨_, hway.spells hon, rfl⟩
    by_cases hseen : node ∈ done
    · refine ⟨(none, done), by simp only [visit, hon, hseen, if_true, if_false], .inr ?_⟩
      exact ⟨rfl, hclear, List.Subset.refl _, by simpa using hseen⟩
    obtain ⟨⟨found, done'⟩, hloop, houtcome⟩ : ∃ result, firstFound
            (fun next done => visit edges depth next.1 (path ++ [(node, next.2)]) done)
            (successors edges node) done = some result ∧
          Outcome edges (path ++ [(node, "")]) ((successors edges node).map Prod.fst) done
            result := by
      refine firstFound_outcome ?_ (hclear.longer hseen)
      intro next hnext done hdone
      have hedge := mem_successors.mp hnext
      have hnew := hdone.of_longer
      obtain ⟨result, heq, hresult⟩ :=
        ih (hway.step hdeclared hon hedge) (hnew.1.longer hnew.2)
          (by rw [length_append, length_singleton]; omega)
      refine ⟨result, heq, hresult.imp_right ?_⟩
      rintro ⟨hnone, hclear', hrest⟩
      exact ⟨hnone, hclear'.of_longer.1.longer hclear'.of_longer.2, hrest⟩
    rcases houtcome with ⟨text, htext, hfound⟩ | ⟨hfound, hclear', hgrown, htargets⟩
    · cases hfound
      refine ⟨(some text, done'), ?_, .inl ⟨text, htext, rfl⟩⟩
      simp only [visit, hon, hseen, if_false, hloop, htext.truthy, if_true]
    · cases hfound
      refine ⟨(none, node :: done'), ?_, .inr ⟨rfl, ⟨?_, ?_⟩, ?_, by simp⟩⟩
      · simp [visit, hon, hseen, hloop, truthy]
      · refine .cons hclear'.of_longer.2 (fun next channel hedge => ?_) hclear'.settled
        exact htargets (mem_map_of_mem (mem_successors.mpr hedge))
      · intro v hv
        rcases mem_cons.mp hv with rfl | hv
        · exact hon
        · exact hclear'.of_longer.1.apart v hv
      · exact List.Subset.trans hgrown (subset_cons_self _ _)

/-! ## More calls left change nothing -/

theorem firstFound_mono {α : Type} {search search' : α → List String → Option Search}
    (h : ∀ item done result, search item done = some result → search' item done = some result)
    {items : List α} {result : Search} (hresult : firstFound search items done = some result) :
    firstFound search' items done = some result := by
  induction items generalizing done with
  | nil => exact hresult
  | cons item rest ih =>
    rw [firstFound] at hresult ⊢
    cases hitem : search item done with
    | none =>
      rw [hitem] at hresult
      cases hresult
    | some found =>
      rw [hitem] at hresult
      rw [h item done found hitem]
      by_cases htruthy : truthy found.1 = true
      · simpa [htruthy] using hresult
      · simp only [htruthy] at hresult ⊢
        exact ih hresult

theorem visit_succ {edges : List Edge} (depth : Nat) {node : String} {path : List (String × String)}
    {result : Search} (h : visit edges depth node path done = some result) :
    visit edges (depth + 1) node path done = some result := by
  induction depth generalizing node path done result with
  | zero => cases h
  | succ depth ih =>
    rw [visit] at h ⊢
    by_cases hon : node ∈ path.map Prod.fst
    · simpa only [hon, if_true] using h
    by_cases hseen : node ∈ done
    · simpa only [hseen, if_true] using h
    simp only [hon, hseen] at h ⊢
    cases hloop : firstFound
        (fun next done => visit edges depth next.1 (path ++ [(node, next.2)]) done)
        (successors edges node) done with
    | none =>
      rw [hloop] at h
      cases h
    | some found =>
      rw [hloop] at h
      rw [firstFound_mono (fun _ _ _ hvisit => ih hvisit) hloop]
      exact h

theorem cycle_succ {depth : Nat} {nodes : List String} {edges : List Edge} {found : Option String}
    (h : cycle depth nodes edges = some found) : cycle (depth + 1) nodes edges = some found := by
  obtain ⟨result, hresult, rfl⟩ := Option.map_eq_some_iff.mp h
  rw [cycle, firstFound_mono (fun _ _ _ hvisit => visit_succ depth hvisit) hresult]
  rfl

/-- With more calls left than there are FMUs the search ends, the same way
whatever the limit is. -/
theorem exists_cycle_eq {nodes : List String} {edges : List Edge}
    (hdeclared : ∀ edge ∈ edges, edge.1 ∈ nodes ∧ edge.2.1 ∈ nodes) :
    ∃ found, (∀ depth, nodes.length < depth → cycle depth nodes edges = some found) ∧
      ((∃ text, SpellsCycle edges text ∧ found = some text) ∨ (found = none ∧ Acyclic edges)) := by
  have hempty : Clear edges [] [] := ⟨.nil, by simp⟩
  obtain ⟨⟨found, done⟩, hloop, houtcome⟩ :
      ∃ result, firstFound (fun node done => visit edges (nodes.length + 1) node [] done) nodes []
          = some result ∧ Outcome edges [] (nodes.map id) [] result := by
    refine firstFound_outcome (fun node hnode done hdone => ?_) hempty
    have hway : OnTheWay nodes edges [] node :=
      ⟨⟨node, .nil node⟩, nodup_nil, nil_subset _, hnode⟩
    exact visit_outcome (fun edge hedge => (hdeclared edge hedge).2) _ hway hdone (by simp)
  have hcycle : cycle (nodes.length + 1) nodes edges =
      some (if truthy found then found else none) := by
    rw [cycle, hloop]
    rfl
  refine ⟨if truthy found then found else none, fun depth hdepth => ?_, ?_⟩
  · -- A larger limit is one call more, time after time.
    induction depth, Nat.succ_le_of_lt hdepth using Nat.le_induction with
    | base => exact hcycle
    | succ depth hle ih => exact cycle_succ (ih hle)
  · rcases houtcome with ⟨text, htext, hfound⟩ | ⟨hfound, hclear, -, htargets⟩
    · cases hfound
      exact .inl ⟨text, htext, by simp [htext.truthy]⟩
    · cases hfound
      refine .inr ⟨by simp, fun node loop hwalk => ?_⟩
      cases hwalk with
      | nil => rfl
      | cons hedge hrest =>
        refine hclear.settled.loop_eq_nil (htargets ?_) (.cons hedge hrest)
        simpa using (hdeclared _ hedge).1

/-! ## The order that is named -/

/-- An FMU stands in front of another. -/
def Before (order : List String) (first second : String) : Prop :=
  ∃ front back, order = front ++ second :: back ∧ first ∈ front

theorem Before.append {more : List String} {first second : String} (h : Before order first second) :
    Before (order ++ more) first second := by
  obtain ⟨front, back, rfl, hmem⟩ := h
  exact ⟨front, back ++ more, by simp, hmem⟩

theorem mem_publishersOf {edges : List Edge} {publisher name : String} :
    publisher ∈ publishersOf edges name ↔ ∃ channel, (publisher, name, channel) ∈ edges := by
  simp [publishersOf]

theorem mem_readyAfter {edges : List Edge} {name : String} :
    name ∈ readyAfter (waiting.map fun name => (name, publishersOf edges name)) order ↔
      name ∈ waiting ∧ ∀ publisher ∈ publishersOf edges name, publisher ∈ order := by
  simp only [readyAfter, mem_map, mem_filter, all_eq_true, decide_eq_true_eq]
  constructor
  · rintro ⟨entry, ⟨⟨a, ha, rfl⟩, hall⟩, rfl⟩
    exact ⟨ha, hall⟩
  · rintro ⟨hmem, hall⟩
    exact ⟨(name, publishersOf edges name), ⟨⟨name, hmem, rfl⟩, hall⟩, rfl⟩

/-- Where the loop of `_topological` stands: some FMUs wait, the others are in an
order that the connections allow. -/
structure Sorting (names : List String) (edges : List Edge) (waiting : List String)
    (order : List String) : Prop where
  perm : (order ++ waiting).Perm names
  follows : ∀ publisher subscriber channel, (publisher, subscriber, channel) ∈ edges →
    subscriber ∈ order → Before order publisher subscriber

theorem Sorting.choose {names : List String} {edges : List Edge} {chosen : String}
    (hnodup : names.Nodup) (h : Sorting names edges waiting order) (hmem : chosen ∈ waiting)
    (hready : ∀ publisher channel, (publisher, chosen, channel) ∈ edges → publisher ∈ order) :
    Sorting names edges (waiting.filter fun name => name != chosen) (order ++ [chosen]) := by
  have hwaiting : waiting.Nodup := (nodup_append.mp (h.perm.nodup_iff.mpr hnodup)).2.1
  refine ⟨?_, ?_⟩
  · rw [← hwaiting.erase_eq_filter, append_assoc]
    exact ((perm_cons_erase hmem).symm.append_left order).trans h.perm
  · intro publisher subscriber channel hedge hsubscriber
    rcases mem_append.mp hsubscriber with hold | hnew
    · exact (h.follows _ _ _ hedge hold).append
    · rw [mem_singleton] at hnew
      subst hnew
      exact ⟨order, [], by simp, hready publisher channel hedge⟩

/-- The loop finds a ready FMU in every turn and ends with all of them. -/
theorem topologicalLoop_sorting {priority : String → Int} {names : List String} {edges : List Edge}
    (hnodup : names.Nodup) (hdeclared : ∀ edge ∈ edges, edge.1 ∈ names) (hacyclic : Acyclic edges)
    (turns : Nat) (h : Sorting names edges waiting order) (hturns : waiting.length ≤ turns) :
    ∃ result, topologicalLoop priority turns
        (waiting.map fun name => (name, publishersOf edges name)) order = some result ∧
      Sorting names edges [] result := by
  induction turns generalizing waiting order with
  | zero =>
    obtain rfl := length_eq_zero_iff.mp (Nat.le_zero.mp hturns)
    exact ⟨order, rfl, h⟩
  | succ turns ih =>
    cases waiting with
    | nil => exact ⟨order, rfl, h⟩
    | cons first rest =>
      -- A publisher that is not waiting is in the order already.
      obtain ⟨source, hsource, hfree⟩ :=
        exists_source hacyclic (cons_ne_nil first rest)
      have hready : source ∈ readyAfter
          ((first :: rest).map fun name => (name, publishersOf edges name)) order := by
        refine mem_readyAfter.mpr ⟨hsource, fun publisher hpublisher => ?_⟩
        obtain ⟨channel, hedge⟩ := mem_publishersOf.mp hpublisher
        have hname := h.perm.mem_iff.mpr (hdeclared _ hedge)
        exact (mem_append.mp hname).resolve_right (hfree publisher channel hedge)
      cases hchosen : (readyAfter
          ((first :: rest).map fun name => (name, publishersOf edges name)) order).argmin
          fun name => toLex (priority name, name) with
      | none =>
        rw [argmin_eq_none.mp hchosen] at hready
        cases hready
      | some chosen =>
        obtain ⟨hmem, hpublishers⟩ := mem_readyAfter.mp (argmin_mem hchosen)
        have hnext := h.choose hnodup hmem fun publisher channel hedge =>
          hpublishers publisher (mem_publishersOf.mpr ⟨channel, hedge⟩)
        have hshorter : ((first :: rest).filter fun name => name != chosen).length <
            (first :: rest).length :=
          length_filter_lt_length_iff_exists.mpr ⟨chosen, hmem, by simp⟩
        obtain ⟨result, heq, hresult⟩ := ih hnext (by omega)
        refine ⟨result, ?_, hresult⟩
        rw [map_cons] at hchosen ⊢
        rw [topologicalLoop, hchosen]
        · dsimp only
          rw [← map_cons (f := fun name => (name, publishersOf edges name)), filter_map]
          exact heq
        · exact cons_ne_nil _ _

theorem exists_topological_eq {priority : String → Int} {names : List String} {edges : List Edge}
    (hnodup : names.Nodup) (hdeclared : ∀ edge ∈ edges, edge.1 ∈ names ∧ edge.2.1 ∈ names)
    (hacyclic : Acyclic edges) :
    ∃ order, topological priority names edges = some order ∧ order.Perm names ∧
      ∀ publisher subscriber channel, (publisher, subscriber, channel) ∈ edges →
        Before order publisher subscriber := by
  have hstart : Sorting names edges names [] := ⟨List.Perm.refl _, by simp⟩
  obtain ⟨order, heq, hsorted⟩ :
      ∃ order, topological priority names edges = some order ∧ Sorting names edges [] order :=
    topologicalLoop_sorting hnodup (fun edge hedge => (hdeclared edge hedge).1) hacyclic
      names.length hstart (Nat.le_refl _)
  have hperm : order.Perm names := by simpa using hsorted.perm
  refine ⟨order, heq, hperm, fun publisher subscriber channel hedge => ?_⟩
  exact hsorted.follows _ _ _ hedge (hperm.mem_iff.mpr (hdeclared _ hedge).2)

/-! ## The order that is accepted -/

section

variable {repr : String → String}

theorem lt_of_prioritiesFollow {priority : String → Int} {names : List String}
    {edges rest : List Edge} (h : prioritiesFollow repr priority names edges rest = .ok ()) :
    ∀ edge ∈ rest, priority edge.1 < priority edge.2.1 := by
  induction rest with
  | nil => simp
  | cons edge rest ih =>
    rw [prioritiesFollow] at h
    by_cases hge : priority edge.1 ≥ priority edge.2.1
    · rw [if_pos hge] at h
      split at h <;> cases h
    · rw [if_neg hge] at h
      intro other hother
      rcases mem_cons.mp hother with rfl | hother
      · exact not_le.mp hge
      · exact ih h other hother

theorem executionOrder_eq_ok {depth : Nat} {doc : Document} {order : List String}
    (h : executionOrder repr depth doc = .ok order) :
    (∀ edge ∈ sameSlot doc, doc.priority edge.1 < doc.priority edge.2.1) ∧
      order = doc.names.insertionSort fun a b => doc.priority a ≤ doc.priority b := by
  unfold executionOrder at h
  dsimp only at h
  split at h
  · cases h
  split at h
  · cases h
  · cases h
  split at h
  · cases h
  · rename_i hfollow
    cases h
    exact ⟨lt_of_prioritiesFollow hfollow, rfl⟩

end

theorem mem_sameSlot {doc : Document} {edge : Edge} :
    edge ∈ sameSlot doc ↔ ∃ channel ∈ doc.channels, channel.latencyNs = 0 ∧
      ∃ subscriber ∈ channel.subscribers, edge = (channel.publisher, subscriber, channel.name) := by
  simp only [sameSlot, (perm_insertionSort _ _).mem_iff, mem_flatMap, mem_filter,
    mem_map, decide_eq_true_eq]
  constructor
  · rintro ⟨channel, ⟨hchannel, hzero⟩, subscriber, hsubscriber, rfl⟩
    exact ⟨channel, hchannel, hzero, subscriber, hsubscriber, rfl⟩
  · rintro ⟨channel, hchannel, hzero, subscriber, hsubscriber, rfl⟩
    exact ⟨channel, ⟨hchannel, hzero⟩, subscriber, hsubscriber, rfl⟩

theorem before_of_priority_lt {priority : String → Int} {names : List String}
    {first second : String} (hfirst : first ∈ names) (hsecond : second ∈ names)
    (hlt : priority first < priority second) :
    Before (names.insertionSort fun a b => priority a ≤ priority b) first second := by
  have hperm := perm_insertionSort (fun a b => priority a ≤ priority b) names
  have hsorted : (names.insertionSort fun a b => priority a ≤ priority b).Pairwise
      fun a b => priority a ≤ priority b := by
    exact pairwise_insertionSort _ _
  obtain ⟨front, back, hsplit⟩ := append_of_mem (hperm.mem_iff.mpr hsecond)
  have hmem := hperm.mem_iff.mpr hfirst
  rw [hsplit] at hmem hsorted
  refine ⟨front, back, hsplit, ?_⟩
  rcases mem_append.mp hmem with hfront | hback
  · exact hfront
  · rcases mem_cons.mp hback with rfl | hback
    · exact absurd hlt (lt_irrefl _)
    · have hle := (pairwise_cons.mp (pairwise_append.mp hsorted).2.1).1 first hback
      exact absurd hlt (not_lt.mpr hle)

/-- The check of the zero-Latency order.  The search for a cycle ends, within as
many nested calls as there are FMUs and one, with a text exactly if there is a
cycle, and the text spells one.  Without a cycle an order is named in which every
publisher stands in front of its subscribers, and so it does in every order that
is accepted. -/
theorem zero_latency_order {names : List String} {edges : List Edge} (hnodup : names.Nodup)
    (hdeclared : ∀ edge ∈ edges, edge.1 ∈ names ∧ edge.2.1 ∈ names) :
    (∃ found, (∀ depth, names.length < depth → cycle depth names edges = some found) ∧
      ((∃ text, found = some text ∧ text ≠ "") ↔
        ∃ node loop, loop ≠ [] ∧ Walk edges node loop node) ∧
      ∀ text, found = some text →
        ∃ node loop, loop ≠ [] ∧ Walk edges node loop node ∧ text = spell loop node) ∧
    (∀ priority : String → Int, (∀ node loop, Walk edges node loop node → loop = []) →
      ∃ order, topological priority names edges = some order ∧ order.Perm names ∧
        ∀ publisher subscriber channel, (publisher, subscriber, channel) ∈ edges →
          Before order publisher subscriber) ∧
    ∀ (repr : String → String) (depth : Nat) (doc : Document) (order : List String),
      executionOrder repr depth doc = .ok order →
        order.Perm doc.names ∧ ∀ channel ∈ doc.channels, channel.latencyNs = 0 →
          ∀ subscriber ∈ channel.subscribers, Before order channel.publisher subscriber := by
  refine ⟨?_, fun priority hacyclic => exists_topological_eq hnodup hdeclared hacyclic, ?_⟩
  · obtain ⟨found, hcycle, hfound⟩ := exists_cycle_eq hdeclared
    refine ⟨found, hcycle, ?_, ?_⟩
    · constructor
      · rintro ⟨text, rfl, -⟩
        rcases hfound with ⟨_, ⟨node, loop, hne, hwalk, -⟩, -⟩ | ⟨hnone, -⟩
        · exact ⟨node, loop, hne, hwalk⟩
        · cases hnone
      · rintro ⟨node, loop, hne, hwalk⟩
        rcases hfound with ⟨text, ⟨_, _, hnonempty, -, rfl⟩, rfl⟩ | ⟨-, hacyclic⟩
        · exact ⟨_, rfl, spell_ne_empty hnonempty⟩
        · exact absurd (hacyclic node loop hwalk) hne
    · rintro text rfl
      rcases hfound with ⟨other, hspells, heq⟩ | ⟨hnone, -⟩
      · cases heq
        exact hspells
      · cases hnone
  · intro repr depth doc order h
    obtain ⟨hpriorities, rfl⟩ := executionOrder_eq_ok h
    refine ⟨perm_insertionSort _ _, fun channel hchannel hzero subscriber hsubscriber => ?_⟩
    have hedge := mem_sameSlot.mpr ⟨channel, hchannel, hzero, subscriber, hsubscriber, rfl⟩
    exact before_of_priority_lt (doc.publisher_declared channel hchannel)
      (doc.subscribers_declared channel hchannel subscriber hsubscriber) (hpriorities _ hedge)

/-- Two FMUs that publish to each other, and one that publishes to itself. -/
def mutualEdges : List Edge :=
  [("a", "b", "x"), ("b", "a", "y"), ("c", "c", "z")]

theorem zero_latency_order_mutual :
    ∃ found, (∀ depth, 3 < depth → cycle depth ["a", "b", "c"] mutualEdges = some found) ∧
      ∃ text, found = some text ∧ text ≠ "" := by
  have hnodup : ["a", "b", "c"].Nodup := by decide
  have hdeclared : ∀ edge ∈ mutualEdges, edge.1 ∈ ["a", "b", "c"] ∧ edge.2.1 ∈ ["a", "b", "c"] := by
    decide
  obtain ⟨⟨found, hcycle, hiff, -⟩, -⟩ := zero_latency_order hnodup hdeclared
  refine ⟨found, hcycle, hiff.mpr ⟨"c", [("c", "z")], by decide, ?_⟩⟩
  exact Walk.single (by decide)

end SilFormal.Coupling
