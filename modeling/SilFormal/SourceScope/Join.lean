import SilFormal.SourceScope.Pairing

/-!
# Joining scope calls with Activations

`_Join` attributes each paired call on the runner thread to the Activation of
the selected participant that contains both its ends.  A call or an unpaired
edge that touches an Activation without being contained in it flags it, and a
flagged Activation is reported as unavailable.
-/

namespace SilFormal.SourceScope

/-! ## The observation stream -/

/-- A kept record of kind `activation`. -/
structure ActivationRow where
  participant : String
  taskKind : Option String
  task : String
  index : Nat
  virtualTimeNs : Nat
  tid : Option Nat
  beginNs : Nat
  endNs : Nat
  outcome : String
deriving DecidableEq, Repr

/-- A kept record: an Activation, or one of another kind with its times. -/
inductive Row
  | activation (row : ActivationRow)
  | other (times : List Nat)
deriving DecidableEq, Repr

/-- The times of a record. -/
def Row.times : Row → List Nat
  | .activation row => [row.beginNs, row.endNs]
  | .other times => times

/-- `_Stream`, whose coverage ends at its last kept time. -/
structure Stream where
  runnerTid : Option Nat
  rows : List Row
  cut : Bool
  coverageEnd : Nat
  covered : ∀ row ∈ rows, ∀ t ∈ row.times, t ≤ coverageEnd

namespace Stream

/-- The stream of a header, before its first record. -/
def new (runnerTid : Option Nat) : Stream where
  runnerTid := runnerTid
  rows := []
  cut := false
  coverageEnd := 0
  covered := by simp

theorem le_foldl_max (l : List Nat) (m : Nat) : m ≤ l.foldl max m ∧ ∀ t ∈ l, t ≤ l.foldl max m := by
  induction l generalizing m with
  | nil => simp
  | cons t l ih =>
    obtain ⟨hm, hl⟩ := ih (max m t)
    refine ⟨(le_max_left m t).trans hm, List.forall_mem_cons.mpr ⟨?_, hl⟩⟩
    exact (le_max_right m t).trans hm

/-- One further record. -/
def push (s : Stream) (row : Row) : Stream where
  runnerTid := s.runnerTid
  rows := s.rows ++ [row]
  cut := s.cut
  coverageEnd := row.times.foldl max s.coverageEnd
  covered := by
    obtain ⟨hold, hnew⟩ := le_foldl_max row.times s.coverageEnd
    intro r hr t ht
    rcases List.mem_append.mp hr with hr | hr
    · exact (s.covered r hr t ht).trans hold
    · rw [List.mem_singleton.mp hr] at ht
      exact hnew t ht

/-- The stream with its end decided. -/
def ended (s : Stream) (cut : Bool) : Stream :=
  { s with cut := cut }

end Stream

/-- What a line after the header decodes to. -/
inductive Line
  /-- A line that does not decode cuts the stream there. -/
  | malformed
  | last (truncated writeFailed dropped : Bool)
  | row (r : Row)
deriving DecidableEq, Repr

/-- `_Stream.parse`, after the header. -/
def Stream.parse (s : Stream) : List Line → Stream
  | [] => s.ended true
  | .malformed :: _ => s.ended true
  | .last truncated writeFailed dropped :: _ => s.ended (truncated || writeFailed || dropped)
  | .row r :: rest => parse (s.push r) rest

/-! ## Intervals -/

/-- An interval with its value. -/
structure Item where
  start : Nat
  stop : Nat
  value : Nat
deriving DecidableEq, Repr

/-- The order of tuples. -/
def Item.le (a b : Item) : Prop :=
  a.start < b.start ∨ a.start = b.start ∧ (a.stop < b.stop ∨ a.stop = b.stop ∧ a.value ≤ b.value)

instance : DecidableRel Item.le := fun _ _ => inferInstanceAs (Decidable (_ ∨ _ ∧ (_ ∨ _ ∧ _)))

/-- `bisect.bisect_right` on a sorted list. -/
def bisectRight (l : List Nat) (x : Nat) : Nat :=
  (l.takeWhile (· ≤ x)).length

/-- `_Intervals.find`, on the sorted items. -/
def findItem (items : List Item) (time : Nat) : Option Nat :=
  match bisectRight (items.map Item.start) time with
  | 0 => none
  | index + 1 =>
    items[index]?.bind fun item =>
      if item.start ≤ time ∧ time < item.stop then some item.value else none

/-! ## The join -/

/-- The reasons an Activation is unavailable for. -/
inductive Flag
  | observationsIncomplete
  | eventsLost
  | notCompleted
  | unbalancedScopes
  | crossingCall
deriving DecidableEq, Repr

/-- `ACTIVATION_REASONS`: the first that applies is reported. -/
def activationReasons : List Flag :=
  [.observationsIncomplete, .eventsLost, .notCompleted, .unbalancedScopes, .crossingCall]

/-- The reasons of an unattributed row. -/
inductive RowReason
  | observationsIncomplete
  | workerThread
  | otherParticipant
  | outsideActivations
  | crossingInterval
  | missingReturn
  | missingEntry
deriving DecidableEq, Repr

/-- What the join makes of one call or edge. -/
structure Effect where
  attributed : Option Nat := none
  flags : List (Nat × Flag) := []
  unattributed : Option RowReason := none

/-- What `_Join` is given: the records, the number of lost events, the stream
and the selected participant. -/
structure Capture where
  records : List Record
  lost : Nat
  stream : Stream
  participant : String

namespace Capture

variable (x : Capture)

/-- The kept Activations, with their positions. -/
def rows : List (ActivationRow × Nat) :=
  (x.stream.rows.filterMap fun row =>
    match row with
    | .activation a => some a
    | .other _ => none).zipIdx

/-- The Activations of the selected participant. -/
def selected : List (ActivationRow × Nat) :=
  x.rows.filter fun p => p.1.participant = x.participant ∧ p.1.taskKind = some "native_task"

/-- The positions the join keeps calls for. -/
def keys : List Nat :=
  x.selected.map (·.2)

/-- The intervals on the runner thread. -/
def items : List Item :=
  (x.rows.filter fun p => p.1.tid = x.stream.runnerTid).map fun p =>
    { start := p.1.beginNs, stop := p.1.endNs, value := p.2 }

/-- `self.intervals.find`. -/
def find (time : Nat) : Option Nat :=
  findItem (x.items.insertionSort Item.le) time

/-- A call that touches Activations without being contained in one flags
them. -/
def crossing (reason : Flag) (touched : List Nat) : Effect where
  flags := (touched.filter (· ∈ x.keys)).map fun i => (i, reason)
  unattributed := some
    (if reason = .observationsIncomplete then .observationsIncomplete else .crossingInterval)

/-- The return of a call is beyond what a cut stream kept. -/
def Beyond (c : Call) : Prop :=
  x.stream.cut = true ∧ x.stream.coverageEnd ≤ c.ret.ns

instance (c : Call) : Decidable (x.Beyond c) :=
  inferInstanceAs (Decidable (_ ∧ _))

/-- The end of `_Join._join`, for the intervals the two ends are in. -/
def place (atEntry atReturn : Option Nat) : Effect :=
  -- In a cut stream, an end outside every kept interval can be in a dropped one.
  let outside := if x.stream.cut = true then .observationsIncomplete else .crossingCall
  match atEntry, atReturn with
  | some i, some j =>
    if i = j then
      if i ∈ x.keys then { attributed := some i }
      else { unattributed := some .otherParticipant }
    else x.crossing .crossingCall [i, j]
  | none, none =>
    { unattributed := some
        (if x.stream.cut = true then .observationsIncomplete else .outsideActivations) }
  | some i, none => x.crossing outside [i]
  | none, some j => x.crossing outside [j]

/-- `_Join._join`. -/
def join (c : Call) : Effect :=
  if x.Beyond c then { unattributed := some .observationsIncomplete }
  else if some c.tid ≠ x.stream.runnerTid then { unattributed := some .workerThread }
  else x.place (x.find c.entry.ns) (x.find c.ret.ns)

/-- `_Join._unpaired`. -/
def unpairedEdge (u : Unpaired) : Effect where
  flags :=
    if some u.tid = x.stream.runnerTid then
      ((x.find u.ns).toList.filter (· ∈ x.keys)).map fun i => (i, .unbalancedScopes)
    else []
  unattributed := some (match u with
    | .missingReturn _ => .missingReturn
    | .missingEntry _ _ _ => .missingEntry)

/-- The paired calls, with what the join makes of them. -/
def joined : List (Call × Effect) :=
  (pair x.records).1.map fun c => (c, x.join c)

/-- The flags of one Activation. -/
def flags (i : Nat) : List Flag :=
  (((x.joined.map (·.2)) ++ (pair x.records).2.map x.unpairedEdge).flatMap Effect.flags).filterMap
    fun p => if p.1 = i then some p.2 else none

/-- The calls of one Activation, in the order of their entries. -/
def listed (i : Nat) : List Call :=
  ((x.joined.filter fun p => p.2.attributed = some i).map (·.1)).insertionSort
    fun a b => a.entry.index ≤ b.entry.index

end Capture

/-! ## The document -/

/-- One call in the document. -/
structure CallRow where
  scope : Nat
  depth : Nat
  parent : Option Nat
  entryNs : Nat
  returnNs : Nat
  elapsedNs : Int
deriving DecidableEq, Repr

/-- The loop of `_nest`: the open calls, the innermost first, with their rows;
the rows so far. -/
def nestStep (s : List (Nat × Nat) × List CallRow) (c : Call) : List (Nat × Nat) × List CallRow :=
  let enclosing := s.1.dropWhile fun p => p.1 < c.entry.index
  let row : CallRow := {
    scope := c.scope
    depth := enclosing.length
    parent := enclosing.head?.map (·.2)
    entryNs := c.entry.ns
    returnNs := c.ret.ns
    elapsedNs := (c.ret.ns : Int) - c.entry.ns }
  ((c.ret.index, s.2.length) :: enclosing, s.2 ++ [row])

/-- `_nest`. -/
def nest (calls : List Call) : List CallRow :=
  (calls.foldl nestStep ([], [])).2

/-- `Counter` of the scopes, by scope. -/
def countScopes (calls : List Call) : List (Nat × Nat) :=
  ((calls.map Call.scope).dedup.insertionSort (· ≤ ·)).map fun scope =>
    (scope, (calls.map Call.scope).count scope)

/-- What is reported of an Activation. -/
inductive Report
  | unavailable (reason : Flag) (withheldCalls : Nat)
  | exact (calls : List CallRow) (counts : List (Nat × Nat))
deriving DecidableEq, Repr

namespace Capture

variable (x : Capture)

/-- All flags `_Join._activation` looks at. -/
def allFlags (row : ActivationRow) (i : Nat) : List Flag :=
  x.flags i ++ (if x.lost ≠ 0 then [.eventsLost] else []) ++
    (if row.outcome ≠ "completed" then [.notCompleted] else [])

/-- `_Join._activation`. -/
def activation (p : ActivationRow × Nat) : Report :=
  match activationReasons.find? (· ∈ x.allFlags p.1 p.2) with
  | some reason => .unavailable reason (x.listed p.2).length
  | none => .exact (nest (x.listed p.2)) (countScopes (x.listed p.2))

/-- The unattributed calls and edges, each with the position of its first
record. -/
def unattributed : List (Nat × RowReason) :=
  (x.joined.filterMap fun p => p.2.unattributed.map fun reason => (p.1.entry.index, reason)) ++
    (pair x.records).2.filterMap fun u =>
      (x.unpairedEdge u).unattributed.map fun reason => (u.edge.2, reason)

/-- The problems of a capture. -/
inductive Problem
  | eventsLost
  | observationsIncomplete
  | unbalancedScopes
deriving DecidableEq, Repr

/-- What a capture is reported to lack. -/
def problems : List Problem :=
  (if x.lost ≠ 0 then [.eventsLost] else []) ++
    (if x.stream.cut = true then [.observationsIncomplete] else []) ++
    (if (pair x.records).2 ≠ [] then [.unbalancedScopes] else [])

/-- `_Join.document`. -/
structure Document where
  problems : List Problem
  activations : List (ActivationRow × Report)
  unattributed : List (Nat × RowReason)

def document : Document where
  problems := x.problems
  activations := x.selected.map fun p => (p.1, x.activation p)
  unattributed := x.unattributed.insertionSort fun a b => a.1 ≤ b.1

end Capture

def Report.calls : Report → List CallRow
  | .unavailable _ _ => []
  | .exact calls _ => calls

def Report.withheldCalls : Report → Nat
  | .unavailable _ withheldCalls => withheldCalls
  | .exact _ _ => 0

/-- The totals of the document. -/
structure Totals where
  entries : Nat
  returns : Nat
  pairedCalls : Nat
  attributedCalls : Nat
  withheldCalls : Nat
  unattributed : Nat

def Capture.totals (x : Capture) : Totals where
  entries := x.records.countP (·.edge = .entry)
  returns := x.records.countP (·.edge = .ret)
  pairedCalls := (pair x.records).1.length
  attributedCalls := (x.document.activations.map (·.2.calls.length)).sum
  withheldCalls := (x.document.activations.map (·.2.withheldCalls)).sum
  unattributed := x.document.unattributed.length

end SilFormal.SourceScope
