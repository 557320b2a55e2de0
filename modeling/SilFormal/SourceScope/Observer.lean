import SilFormal.Library.SharedMemory
import SilFormal.SourceScope.Pairing

/-!
# The observer of source scopes

`observe` is called by the threads of a runner at the entry and the return of
each scope.  The threads share the mode of the observer, a try-lock, a counter
of entries while another thread activates, and the mapped file.  One step is
one atomic operation; the activation is one that succeeds.

The memory carries a record of the calls that started and of how each was
counted, which no operation reads.
-/

namespace SilFormal.SourceScope.Observer

/-- `enum mode`. -/
inductive Mode
  | dormant
  | pending
  | activating
  | recording
  | stopped
deriving DecidableEq, Repr

/-- A call of `observe`. -/
structure Observed where
  id : Nat
  edge : Edge
deriving DecidableEq, Repr

/-- How a call is counted. -/
inductive Outcome
  | recorded (r : Record)
  | full
  | contended
  | clockError
  /-- Counted while another thread activates. -/
  | early
deriving DecidableEq, Repr

/-- The record of a call that was recorded. -/
def Outcome.record? : Outcome → Option Record
  | .recorded r => some r
  | _ => none

/-- What the threads share.  The `uint64_t` counters of the source are these
numbers below `2 ^ 64` calls. -/
structure Memory (T : Type) where
  mode : Mode
  busy : Bool
  earlyDrops : Nat
  /-- The header state `active`. -/
  active : Bool
  records : Nat
  droppedFull : Nat
  droppedContended : Nat
  clockErrors : Nat
  slots : Nat → Option Record
  /-- `mapped` and `records` point into the file. -/
  published : Bool
  /-- The header was used without a mapping. -/
  fault : Bool
  /-- The early drops were exchanged. -/
  merged : Bool
  /-- The value of the exchange, until it is stored. -/
  held : Nat
  /-- A slot is written and not yet counted. -/
  writing : Bool
  /-- The thread that holds the lock. -/
  owner : Option T
  /-- The thread that activates. -/
  activator : Option T
  /-- Early drops counted after the exchange. -/
  late : Nat
  /-- The threads of the calls that started. -/
  starts : List T
  /-- The calls that were counted. -/
  outcomes : List (T × Outcome)
  /-- The slots that were written. -/
  writes : List (Nat × Record)

/-- Where a thread stands in `observe`: the next operation, with its call and
its local variables. -/
inductive Pc
  | idle
  | load (c : Observed)
  | swap (c : Observed)
  | exchange (c : Observed)
  | storeContended (c : Observed) (drops : Nat)
  | publish (c : Observed)
  | storeState (c : Observed)
  | storeMode (c : Observed)
  | reload (c : Observed)
  | countEarly (c : Observed)
  | countStopped (c : Observed)
  | clock (c : Observed)
  | countClock (c : Observed)
  | lock (c : Observed) (now : Nat)
  | countContended (c : Observed)
  | loadUsed (c : Observed) (now : Nat)
  | writeSlot (c : Observed) (now used : Nat)
  | storeRecords (c : Observed) (now used : Nat)
  | countFull (c : Observed)
  | storeStopped (c : Observed)
  | unlock (c : Observed)
deriving DecidableEq, Repr

/-- What a step is given: the call of a thread that starts one, and the answer
of the clock, if it does not fail. -/
structure Choice where
  call : Observed
  clock : Option Nat

/-- What `observe` does next for the mode it last read. -/
def dispatch (c : Observed) : Mode → Pc
  | .dormant => .idle
  | .pending => .idle
  | .activating => .countEarly c
  | .recording => .clock c
  | .stopped => .countStopped c

namespace Memory

variable {T : Type} (s : Memory T)

/-- The header is used. -/
def touch : Memory T :=
  { s with fault := s.fault || !s.published }

/-- A call is counted. -/
def counted (t : T) (o : Outcome) : Memory T :=
  { s with outcomes := s.outcomes ++ [(t, o)] }

/-- Before the first call. -/
def initial : Memory T where
  mode := .pending
  busy := false
  earlyDrops := 0
  active := false
  records := 0
  droppedFull := 0
  droppedContended := 0
  clockErrors := 0
  slots := fun _ => none
  published := false
  fault := false
  merged := false
  held := 0
  writing := false
  owner := none
  activator := none
  late := 0
  starts := []
  outcomes := []
  writes := []

end Memory

variable {T : Type}

/-- The record of a call. -/
def recordOf (tid : T → Nat) (t : T) (c : Observed) (now : Nat) : Record where
  ns := now
  tid := tid t
  scope := c.id
  edge := c.edge

/-- One atomic operation of `observe`, for a capacity and the identifiers of the
threads. -/
def exec (capacity : Nat) (tid : T → Nat) : SharedMemory.Program T (Memory T) Pc Choice :=
  fun t a s p =>
  match p with
  | .idle => ({ s with starts := s.starts ++ [t] }, .load a.call)
  | .load c => (s, if s.mode = .pending then .swap c else dispatch c s.mode)
  | .swap c =>
    if s.mode = .pending then
      ({ s with mode := .activating, activator := some t }, .exchange c)
    else (s, .reload c)
  -- `activate`
  | .exchange c =>
    ({ s with earlyDrops := 0, merged := true, held := s.earlyDrops },
      .storeContended c s.earlyDrops)
  | .storeContended c drops => ({ s with droppedContended := drops, held := 0 }, .publish c)
  | .publish c => ({ s with published := true }, .storeState c)
  | .storeState c => ({ s.touch with active := true }, .storeMode c)
  | .storeMode c => ({ s with mode := .recording, activator := none }, .reload c)
  | .reload c => (s, dispatch c s.mode)
  | .countEarly _ =>
    ({ s.counted t .early with
        earlyDrops := s.earlyDrops + 1
        late := if s.merged = true then s.late + 1 else s.late }, .idle)
  | .countStopped _ => ({ s.touch.counted t .full with droppedFull := s.droppedFull + 1 }, .idle)
  | .clock c =>
    match a.clock with
    | none => (s, .countClock c)
    | some now => (s, .lock c now)
  | .countClock _ =>
    ({ s.touch.counted t .clockError with clockErrors := s.clockErrors + 1 }, .idle)
  | .lock c now =>
    if s.busy = true then (s, .countContended c)
    else ({ s with busy := true, owner := some t }, .loadUsed c now)
  | .countContended _ =>
    ({ s.touch.counted t .contended with droppedContended := s.droppedContended + 1 }, .idle)
  | .loadUsed c now =>
    (s.touch, if s.records < capacity then .writeSlot c now s.records else .countFull c)
  | .writeSlot c now used =>
    ({ s.touch with
        slots := Function.update s.slots used (some (recordOf tid t c now))
        writing := true
        writes := s.writes ++ [(used, recordOf tid t c now)] }, .storeRecords c now used)
  | .storeRecords c now used =>
    ({ s.touch.counted t (.recorded (recordOf tid t c now)) with
        records := used + 1
        writing := false }, .unlock c)
  | .countFull c =>
    ({ s.touch.counted t .full with droppedFull := s.droppedFull + 1 }, .storeStopped c)
  | .storeStopped c => ({ s with mode := .stopped }, .unlock c)
  | .unlock _ => ({ s with busy := false, owner := none }, .idle)

end SilFormal.SourceScope.Observer
