import SilFormal.Visualization.Reading

/-!
# The playback controller

`Playback` keeps one state behind a lock: a committed cursor, a desired playing
state, a rate and a subscription.  Commands and drains change it in one step.
`pump` takes a job or a read in one step, asks the Navigator without the lock,
and applies the result in another; any command may come between the two.  Each
step reads the clock at most once.  A Navigator that fails ends the session, and
so does `close`.

The state carries a history of what was enqueued and of the reconstructions,
which no operation reads.
-/

namespace SilFormal.Visualization

/-- `QueueLimits`. -/
structure QueueLimits where
  maxMessages : Nat := 1024
  maxBytes : Nat := 16 * mib
  maxMessages_pos : 0 < maxMessages := by decide
  maxBytes_pos : 0 < maxBytes := by decide

/-- `Status`. -/
inductive Status
  | paused
  | playing
  | buffering
  | ended
  | failed
  | closed
deriving DecidableEq, Repr

/-- `PlaybackState`, without the names of the session and the source. -/
structure PlaybackState (C : Type) where
  generation : Nat
  status : Status
  playing : Bool
  pending : Bool
  cursorNs : Option Nat
  seekNs : Option Nat
  bounds : Option (Nat × Nat)
  rate : ℚ
  requestId : Option String
  subscription : List C
  diagnostic : Option String
deriving DecidableEq

/-- `Notification`. -/
inductive Notification (C : Type)
  | reset (generation : Nat) (positionNs : Option Nat) (requestId : Option String)
  | backfill (generation : Nat) (message : SourceMessage C)
  | message (generation : Nat) (message : SourceMessage C)
  /-- It names the Message: its Channel, time, record index and size. -/
  | refused (generation : Nat) (message : SourceMessage C) (backfill : Bool) (reason : String)
  | commit (state : PlaybackState C)
  | stateChanged (state : PlaybackState C)
deriving DecidableEq

namespace Notification

variable {C : Type}

/-- `_channel`. -/
def channel : Notification C → Option C
  | .backfill _ m | .message _ m | .refused _ m _ _ => some m.channel
  | _ => none

/-- What `_account` adds to the queued Messages. -/
def messages : Notification C → Nat
  | .backfill _ _ | .message _ _ | .refused _ _ _ _ => 1
  | _ => 0

/-- What `_account` adds to the queued bytes. -/
def bytes : Notification C → Nat
  | .backfill _ m | .message _ m => m.size
  | _ => 0

def isStateChanged : Notification C → Bool
  | .stateChanged _ => true
  | _ => false

end Notification

/-- What happened: a notification was enqueued, or a Channel is reconstructed at
a position, in a session that neither played nor sought before or not. -/
inductive Entry (C : Type)
  | enqueued (n : Notification C)
  | reconstructed (channel : C) (position : Position) (fresh : Bool)
deriving DecidableEq

/-- The arguments of `configure`. -/
structure Request where
  requestId : String
  positionNs : Option Int
  playing : Option Bool
  rate : Option ℚ
deriving DecidableEq

/-- `_Staged`. -/
structure Staged (C : Type) where
  job : Job C
  items : List (Item C)
  queued : Finset C

/-- The work that `pump` took. -/
inductive Work (C : Type)
  | job (j : Job C)
  | read (r : Read C)

def Work.generation {C : Type} : Work C → Nat
  | .job j => j.generation
  | .read r => r.generation

/-- The state of the controller.  `seekAfter` counts while a Reset is pending,
and a position or a time counts only for a source with Messages. -/
structure State (C : Type) where
  clock : Int
  generation : Nat
  playing : Bool
  rate : ℚ
  cursor : Nat
  after : Position
  anchor : Int × Nat
  stallTarget : Option Nat
  ended : Bool
  closed : Bool
  more : Bool
  fault : Option String
  fresh : Bool
  subscription : List C
  unreconstructed : Finset C
  staged : Option (Staged C)
  resetPending : Bool
  seekAfter : Position
  seekRequest : Option String
  requestId : Option String
  requests : List (Request × PlaybackState C)
  queue : List (Notification C)
  queuedMessages : Nat
  queuedBytes : Nat
  /-- The work in flight, while `_busy`. -/
  work : Option (Work C)
  history : List (Entry C)
  /-- The seeks that were committed. -/
  seeks : Nat
  /-- A command played or sought. -/
  started : Bool

/-- Why a command is refused. -/
inductive Problem (C : Type)
  | closed
  | failed (fault : String)
  | requestId (id : String)
  | conflict (id : String)
  | noMessages
  | outside (positionNs : Int) (bounds : Nat × Nat)
  | rate (rate : ℚ)
  | subscription (names : List C)
deriving DecidableEq

/-- `InvalidCommand`, with the unchanged state. -/
structure InvalidCommand (C : Type) where
  problem : Problem C
  state : PlaybackState C
deriving DecidableEq

/-- `REQUEST_CACHE`. -/
def requestCache : Nat := 256

/-- `MIN_RATE`: the double nearest to a tenth. -/
def minRate : ℚ := 3602879701896397 / 2 ^ 55

/-- `MAX_RATE`. -/
def maxRate : ℚ := 10

/-- `_MAX_PAGE_ROWS`. -/
def maxPageRows : Nat := 1000

/-- What a controller is given. -/
structure Playback (C : Type) where
  source : Source C
  limits : QueueLimits

namespace State

variable {C : Type} [DecidableEq C] (s : State C)

/-- `_pending`. -/
def pending : Bool := s.resetPending || decide (s.unreconstructed ≠ ∅)

/-- `_stalled`. -/
def stalled : Bool := s.stallTarget.isSome

/-- `_running`. -/
def running : Bool := s.playing && !s.pending && !s.stalled && !s.ended

/-- A new state replaces the one that is last in the queue. -/
def replacesLast (n : Notification C) : Bool :=
  n.isStateChanged && s.queue.getLast?.any Notification.isStateChanged

/-- `_enqueue`, with `_account`. -/
def enqueue (n : Notification C) : State C :=
  { s with
    queue := if s.replacesLast n then s.queue.dropLast ++ [n] else s.queue ++ [n]
    queuedMessages :=
      if s.replacesLast n then s.queuedMessages else s.queuedMessages + n.messages
    queuedBytes := if s.replacesLast n then s.queuedBytes else s.queuedBytes + n.bytes
    history := s.history ++ [.enqueued n] }

/-- `_drop`, which counts what it keeps anew. -/
def drop (removes : Notification C → Bool) : State C :=
  let kept := s.queue.filter fun n => !removes n
  { s with
    queue := kept
    queuedMessages := (kept.map Notification.messages).sum
    queuedBytes := (kept.map Notification.bytes).sum }

/-- The history notes that Channels are reconstructed. -/
def note (channels : List C) (position : Position) : State C :=
  { s with history := s.history ++ channels.map fun c => .reconstructed c position (!s.started) }

/-- The history notes whether a command played or sought. -/
def noteStart (starts : Bool) : State C := { s with started := s.started || starts }

/-- No page stopped before its target. -/
def quiet : State C := { s with more := false }

/-- `_busy`, with the work. -/
def busyWith (work : Option (Work C)) : State C := { s with work := work }

/-- Where the next job reconstructs: the pending seek, or the position. -/
def jobAfter : Position := if s.resetPending then s.seekAfter else s.after

/-- The job of the pending state. -/
def nextJob : Job C where
  generation := s.generation
  reset := s.resetPending
  after := s.jobAfter
  channels := s.subscription.filter (· ∈ s.unreconstructed)

/-- `_take_job`. -/
def takeJob : Option (Job C) :=
  if s.pending then some s.nextJob else none

/-- `_start_seek`. -/
def startSeek (after : Position) (requestId : Option String) : State C :=
  { s.drop fun _ => true with
    seekRequest := requestId
    staged := none
    generation := s.generation + 1
    resetPending := true
    seekAfter := after
    unreconstructed := s.subscription.toFinset
    ended := false
    stallTarget := none }

/-- The Channels that wait for a reconstruction when staged Backfill is dropped:
those whose Backfill is queued do not, unless a Reset is pending. -/
def waiting : Finset C :=
  match s.staged with
  | none => s.unreconstructed
  | some staged => if staged.job.reset then s.unreconstructed else s.unreconstructed \ staged.queued

/-- `_discard_staged`. -/
def discardStaged : State C :=
  { s with unreconstructed := s.waiting, staged := none }

/-- The effect of `disconnect`. -/
def disconnect : State C :=
  { s.drop fun _ => true with
    playing := false
    stallTarget := none
    subscription := []
    unreconstructed := ∅
    staged := none
    requests := []
    generation := s.generation + 1
    fresh := true }

/-- `drain`, with what it returns. -/
def drain (maxItems : Option Nat) : List (Notification C) × State C :=
  let count := maxItems.getD s.queue.length
  let taken := s.queue.take count
  (taken, { s with
    queue := s.queue.drop count
    queuedMessages := s.queuedMessages - (taken.map Notification.messages).sum
    queuedBytes := s.queuedBytes - (taken.map Notification.bytes).sum })

end State

namespace Playback

variable {C : Type} [DecidableEq C] (p : Playback C)

/-- `_start`, for a source with Messages. -/
def startNs : Nat := (p.source.bounds.map Prod.fst).getD 0

/-- `_end`, for a source with Messages. -/
def endNs : Nat := (p.source.bounds.map Prod.snd).getD 0

/-- Before every Message of the first instant. -/
def first : Position := .mk p.startNs beforeInstant

/-- `Playback.__init__`, at a time of the clock. -/
def initial (clock : Int) : State C where
  clock := clock
  generation := 0
  playing := false
  rate := 1
  cursor := p.startNs
  after := p.first
  anchor := (0, p.startNs)
  stallTarget := none
  ended := false
  closed := false
  more := false
  fault := none
  fresh := false
  subscription := []
  unreconstructed := ∅
  staged := none
  resetPending := false
  seekAfter := p.first
  seekRequest := none
  requestId := none
  requests := []
  queue := []
  queuedMessages := 0
  queuedBytes := 0
  work := none
  history := []
  seeks := 0
  started := false

/-- `_playhead`. -/
def playhead (s : State C) (now : Int) : Nat :=
  min p.endNs (s.anchor.2 + ⌊((now - s.anchor.1).toNat : ℚ) * s.rate⌋.toNat)

/-- The status of `_state`. -/
def status (s : State C) : Status :=
  if s.closed then .closed
  else if s.fault.isSome then .failed
  else if s.pending then .buffering
  else if s.ended then .ended
  else if s.playing then (if s.stalled then .buffering else .playing)
  else .paused

/-- `_seek`. -/
def seekNs (s : State C) : Option Nat :=
  if s.resetPending && p.source.bounds.isSome then some s.seekAfter.time else none

/-- `_state`. -/
def state (s : State C) : PlaybackState C where
  generation := s.generation
  status := status s
  playing := s.playing
  pending := s.pending
  cursorNs := p.source.bounds.map fun _ => s.cursor
  seekNs := p.seekNs s
  bounds := p.source.bounds
  rate := s.rate
  requestId := s.requestId
  subscription := s.subscription
  diagnostic := s.fault

/-- `_check_open`. -/
def checkOpen (s : State C) : Option (Problem C) :=
  if s.closed then some .closed else s.fault.map .failed

/-- `_check_configure`. -/
def checkConfigure (r : Request) : Option (Problem C) :=
  (r.positionNs.bind fun position =>
    match p.source.bounds with
    | none => some .noMessages
    | some bounds =>
      if (bounds.1 : Int) ≤ position ∧ position ≤ bounds.2 then none
      else some (.outside position bounds)).or
  (r.rate.bind fun rate =>
    if minRate ≤ rate ∧ rate ≤ maxRate then none else some (.rate rate))

/-- The change of the rate. -/
def setRate (rate : Option ℚ) (s : State C) : State C :=
  match rate with
  | none => s
  | some rate =>
    if rate = s.rate then s
    else if s.running then
      { s with anchor := (s.clock, p.playhead s s.clock), rate := rate }
    else { s with rate := rate }

theorem setRate_eq (rate : Option ℚ) (s : State C) :
    ∃ anchor q, p.setRate rate s = { s with anchor := anchor, rate := q } := by
  cases rate with
  | none => exact ⟨s.anchor, s.rate, rfl⟩
  | some q =>
    rw [setRate]
    split_ifs
    · exact ⟨s.anchor, s.rate, rfl⟩
    · exact ⟨_, q, rfl⟩
    · exact ⟨s.anchor, q, rfl⟩

/-- The seek of a command: to its position, or to the start for Play after the end. -/
def seek (r : Request) (s : State C) : State C :=
  match r.positionNs with
  | some position => s.startSeek (.mk position.toNat afterInstant) (some r.requestId)
  | none =>
    if r.playing = some true ∧ s.ended = true ∧ p.source.bounds.isSome = true then
      s.startSeek p.first (some r.requestId)
    else s

/-- `_set_playing`. -/
def setPlaying (playing : Option Bool) (s : State C) : State C :=
  match playing with
  | none => s
  | some false => { s with playing := false, stallTarget := none }
  | some true =>
    if p.source.bounds.isNone then { s with ended := true }
    else if s.playing then s
    else { s with playing := true, anchor := (s.clock, s.cursor) }

omit [DecidableEq C] in
theorem setPlaying_eq (playing : Option Bool) (s : State C) :
    ∃ playing' stallTarget ended anchor, p.setPlaying playing s =
      { s with
        playing := playing'
        stallTarget := stallTarget
        ended := ended
        anchor := anchor } := by
  rcases playing with _ | _ | _
  · exact ⟨s.playing, s.stallTarget, s.ended, s.anchor, rfl⟩
  · exact ⟨false, none, s.ended, s.anchor, rfl⟩
  · rw [setPlaying]
    split_ifs
    · exact ⟨s.playing, s.stallTarget, true, s.anchor, rfl⟩
    · exact ⟨s.playing, s.stallTarget, s.ended, s.anchor, rfl⟩
    · exact ⟨true, s.stallTarget, s.ended, _, rfl⟩

theorem seek_cases (r : Request) (s : State C) :
    p.seek r s = s ∨ ∃ after requestId, p.seek r s = s.startSeek after requestId := by
  rw [seek]
  split
  · exact .inr ⟨_, _, rfl⟩
  · split_ifs
    · exact .inr ⟨_, _, rfl⟩
    · exact .inl rfl

/-- A command plays or seeks. -/
def starts (r : Request) : Bool := r.positionNs.isSome || r.playing == some true

/-- The effect of an accepted command. -/
def apply (r : Request) (s : State C) : State C :=
  let t := p.setPlaying r.playing (p.seek r (p.setRate r.rate (s.noteStart (starts r))))
  { t with requestId := some r.requestId }

/-- Remember the result of an accepted command. -/
def remember (r : Request) (s : State C) : State C :=
  let requests := s.requests ++ [(r, p.state s)]
  { s with requests := if requests.length > requestCache then requests.tail else requests }

/-- `configure`. -/
def configure (r : Request) (s : State C) : Except (InvalidCommand C) (PlaybackState C × State C) :=
  match checkOpen s with
  | some problem => .error ⟨problem, p.state s⟩
  | none =>
    if r.requestId = "" then .error ⟨.requestId r.requestId, p.state s⟩
    else
      match s.requests.find? fun cached => cached.1.requestId = r.requestId with
      | some cached =>
        if cached.1 = r then .ok (cached.2, s) else .error ⟨.conflict r.requestId, p.state s⟩
      | none =>
        match p.checkConfigure r with
        | some problem => .error ⟨problem, p.state s⟩
        | none => .ok (p.state (p.apply r s), p.remember r (p.apply r s))

/-- The subscription is replaced. -/
def resubscribe (wanted : List C) (s : State C) : State C :=
  let t := s.discardStaged
  let u : State C :=
    { t with
      generation := t.generation + 1
      unreconstructed :=
        (t.unreconstructed ∩ wanted.toFinset) ∪ (wanted.toFinset \ s.subscription.toFinset)
      subscription := wanted
      stallTarget := none
      anchor := if t.stalled then (t.clock, t.cursor) else t.anchor }
  u.drop fun n => n.channel.any fun c => c ∈ s.subscription ∧ c ∉ wanted

/-- A new client starts with a Reset. -/
def welcome (s : State C) : State C :=
  if s.fresh ∧ s.subscription ≠ [] then
    { s.startSeek s.jobAfter none with fresh := false }
  else s

/-- `set_subscription`. -/
def setSubscription (names : List C) (s : State C) :
    Except (InvalidCommand C) (PlaybackState C × State C) :=
  match checkOpen s with
  | some problem => .error ⟨problem, p.state s⟩
  | none =>
    if (∀ c ∈ names, c ∈ p.source.channels) ∧ names.Nodup then
      let wanted := p.source.channels.filter (· ∈ names)
      if wanted = s.subscription then .ok (p.state s, s)
      else
        let t := welcome (resubscribe wanted s)
        .ok (p.state t, t)
    else .error ⟨.subscription names, p.state s⟩

/-- `disconnect`, which a session that failed accepts. -/
def disconnect (s : State C) : Except (InvalidCommand C) (PlaybackState C × State C) :=
  if s.closed then .error ⟨.closed, p.state s⟩ else .ok (p.state s.disconnect, s.disconnect)

/-- The session plays no more, and reports it. -/
def stop (s : State C) : State C :=
  let t := { s with playing := false }
  t.enqueue (.stateChanged (p.state t))

/-- `close`. -/
def close (s : State C) : State C :=
  if s.closed then s else p.stop { s.drop fun _ => true with closed := true }

/-- `_fail`. -/
def fail (error : String) (s : State C) : State C :=
  p.stop { s with fault := some error, stallTarget := none }

/-- `_backfill`. -/
def backfill (s : State C) (item : Item C) (generation : Nat) : Option (Notification C) :=
  if s.queuedMessages ≥ p.limits.maxMessages then none
  else
    match item.refusal with
    | some reason => some (.refused generation item.message true reason)
    | none =>
      if item.message.size > p.limits.maxBytes then
        some (.refused generation item.message true
          (Source.refusal item.message s!"the queue limit is {p.limits.maxBytes}"))
      else if s.queuedBytes + item.message.size > p.limits.maxBytes then none
      else some (.backfill generation item.message)

/-- The state that a commit reports: the seek of a Reset is done, and no Channel
waits. -/
def settle (job : Job C) (queued : Finset C) (s : State C) : State C :=
  let cursor := if job.reset then job.after.time else s.cursor
  { s.note (job.channels.filter (· ∉ queued)) job.after with
    staged := none
    cursor := cursor
    after := if job.reset then job.after else s.after
    resetPending := s.resetPending && !job.reset
    seeks := if job.reset then s.seeks + 1 else s.seeks
    unreconstructed := ∅
    anchor := if s.playing then (s.clock, cursor) else s.anchor }

/-- The end of `_fill_staged`: all the staged Backfill is queued. -/
def commitStaged (job : Job C) (queued : Finset C) (s : State C) : State C :=
  (settle job queued s).enqueue (.commit (p.state (settle job queued s)))

/-- `_fill_staged`, from what is left of the items. -/
def fillStaged (job : Job C) : List (Item C) → Finset C → State C → State C
  | [], queued, s => p.commitStaged job queued s
  | item :: items, queued, s =>
    match p.backfill s item job.generation with
    | none => { s with staged := some ⟨job, item :: items, queued⟩ }
    | some n =>
      fillStaged job items (insert item.channel queued)
        ((s.note [item.channel] job.after).enqueue n)

/-- `_commit`. -/
def commit (job : Job C) (items : List (Item C)) (s : State C) : State C :=
  if job.generation ≠ s.generation then s
  else if job.reset then
    p.fillStaged job items ∅ (s.enqueue (.reset job.generation (p.seekNs s) s.seekRequest))
  else p.fillStaged job items ∅ s

/-- `_stall`. -/
def stall (target : Nat) (s : State C) : State C :=
  if s.stalled then s
  else
    let t := { s with stallTarget := some target }
    t.enqueue (.stateChanged (p.state t))

/-- The position that the playhead has reached, or holds while buffering. -/
def target (s : State C) : Nat := s.stallTarget.getD (p.playhead s s.clock)

/-- The read of a playing state, with free room in the queue. -/
def nextRead (s : State C) (target : Nat) (messages bytes : Nat) (hm : 0 < messages)
    (hb : 0 < bytes) : Read C where
  generation := s.generation
  channels := s.subscription
  after := s.after
  target := target
  limits := ⟨min messages maxPageRows, bytes, lt_min hm (by decide), hb⟩
  queueEmpty := s.queuedMessages == 0

/-- `_take_read`. -/
def takeRead (s : State C) : Option (Read C) × State C :=
  if s.playing = false ∨ s.pending = true ∨ s.ended = true then (none, s.quiet)
  else
    let messages := p.limits.maxMessages - s.queuedMessages
    let bytes := p.limits.maxBytes - s.queuedBytes
    if h : 0 < messages ∧ 0 < bytes then
      if s.stalled ∧ s.queuedMessages ≠ 0 then (none, s.quiet)
      else (some (nextRead s (p.target s) messages bytes h.1 h.2), s.quiet)
    else (none, p.stall (p.target s) s.quiet)

/-- The Messages of a page are enqueued. -/
def deliver (generation : Nat) : List (Item C) → State C → State C
  | [], s => s
  | item :: items, s => deliver generation items (s.enqueue (.message generation item.message))

omit [DecidableEq C] in
/-- The Messages are counted, and only the queue and the history change else. -/
theorem deliver_eq (generation : Nat) (items : List (Item C)) (s : State C) :
    deliver generation items s =
      { s with
        queue := s.queue ++ items.map fun i => .message generation i.message
        queuedMessages := s.queuedMessages + items.length
        queuedBytes := s.queuedBytes + (items.map fun i => i.message.size).sum
        history := s.history ++ items.map fun i => .enqueued (.message generation i.message) } := by
  induction items generalizing s with
  | nil => simp [deliver]
  | cons item items ih =>
    rw [deliver, ih]
    simp [State.enqueue, State.replacesLast, Notification.isStateChanged, Notification.messages,
      Notification.bytes, Nat.add_assoc, Nat.add_comm 1]

/-- The position moves to the last item. -/
def moveTo (items : List (Item C)) (s : State C) : State C :=
  match items.getLast? with
  | none => s
  | some item => { s with after := item.key, cursor := item.key.time }

/-- The page reached its target. -/
def reach (target : Nat) (s : State C) : State C :=
  let t := { s with after := .mk target afterInstant, cursor := target }
  if target = p.endNs then
    let u := { t with ended := true, playing := false, stallTarget := none }
    u.enqueue (.stateChanged (p.state u))
  else if t.stalled then
    let u := { t with stallTarget := none, anchor := (t.clock, t.cursor) }
    u.enqueue (.stateChanged (p.state u))
  else t

/-- What `_advance` does after the items are enqueued. -/
def finish (target : Nat) (items : List (Item C)) (complete : Bool) (s : State C) : State C :=
  if complete then p.reach target (moveTo items s) else { moveTo items s with more := true }

/-- The `LimitExceeded` that a page starts with. -/
def refusedFirst (items : List (Item C)) : Option (SourceMessage C × String) :=
  items.head?.bind fun item => item.refusal.map fun reason => (item.message, reason)

/-- `_advance`. -/
def advance (r : Read C) (items : List (Item C)) (complete : Bool) (s : State C) : State C :=
  if r.generation ≠ s.generation ∨ s.playing = false ∨ s.pending = true ∨ s.ended = true then s
  else
    match refusedFirst items with
    | some (m, reason) =>
      if r.queueEmpty then
        p.finish r.target items complete (s.enqueue (.refused r.generation m false reason))
      else p.stall r.target s
    | none => p.finish r.target items complete (deliver r.generation items s)

/-- `pump` until it releases the lock. -/
def pumpBegin (s : State C) : State C :=
  if s.closed ∨ s.work.isSome ∨ s.fault.isSome then s
  else
    match s.staged with
    | some staged => p.fillStaged staged.job staged.items staged.queued s
    | none =>
      match s.takeJob with
      | some job => s.busyWith (some (.job job))
      | none =>
        match p.takeRead s with
        | (some r, t) => t.busyWith (some (.read r))
        | (none, t) => t

/-- `pump` when the Navigator has answered. -/
def pumpEnd (s : State C) : State C :=
  if s.closed then s.busyWith none
  else
    match s.work with
    | none => s
    | some (.job job) => p.commit job (p.source.reconstruct job) (s.busyWith none)
    | some (.read r) => p.advance r (p.source.read r).1 (p.source.read r).2 (s.busyWith none)

/-- `pump` when the Navigator has failed. -/
def pumpFail (error : String) (s : State C) : State C :=
  if s.closed then s.busyWith none
  else if s.work.isSome then p.fail error (s.busyWith none)
  else s

/-- What takes effect under the lock. -/
inductive Action (C : Type)
  | configure (r : Request)
  | setSubscription (names : List C)
  | disconnect
  | close
  | drain (maxItems : Option Nat)
  | pumpBegin
  | pumpEnd
  | pumpFail (error : String)
deriving DecidableEq

/-- A refused command leaves the state unchanged. -/
def kept (s : State C) : Except (InvalidCommand C) (PlaybackState C × State C) → State C
  | .ok (_, t) => t
  | .error _ => s

/-- One action at the time of the state. -/
def perform (s : State C) : Action C → State C
  | .configure r => kept s (p.configure r s)
  | .setSubscription names => kept s (p.setSubscription names s)
  | .disconnect => kept s (p.disconnect s)
  | .close => p.close s
  | .drain maxItems => (s.drain maxItems).2
  | .pumpBegin => p.pumpBegin s
  | .pumpEnd => p.pumpEnd s
  | .pumpFail error => p.pumpFail error s

/-- One action after some time. -/
def step (s : State C) (a : Nat × Action C) : State C :=
  p.perform { s with clock := s.clock + a.1 } a.2

/-- Actions in turn. -/
def run (s : State C) (actions : List (Nat × Action C)) : State C :=
  actions.foldl p.step s

/-! ### What a step can do -/

/-- A command acts: the session goes on, the command is new, and its arguments
are valid. -/
def accepts (s : State C) (r : Request) : Bool :=
  (checkOpen s).isNone && r.requestId ≠ "" &&
    (s.requests.find? fun cached => cached.1.requestId = r.requestId).isNone &&
    (p.checkConfigure r).isNone

theorem perform_configure (s : State C) (r : Request) : p.perform s (.configure r) =
      if p.accepts s r then p.remember r (p.apply r s) else s := by
  rw [perform, configure, accepts]
  cases checkOpen s with
  | some problem => simp [kept]
  | none => ?_
  by_cases hid : r.requestId = ""
  · simp [hid, kept]
  · cases hcached : s.requests.find? fun cached => cached.1.requestId = r.requestId with
    | some cached =>
      simp only [if_false, Option.isNone_some, Bool.and_false, Bool.false_and, Bool.false_eq_true]
      split_ifs <;> rfl
    | none => cases hcheck : p.checkConfigure r <;> simp [hid, kept]

/-- A subscription acts: the session goes on, the names are valid and they are
not the Channels subscribed. -/
def subscribes (s : State C) (names : List C) : Bool :=
  (checkOpen s).isNone && decide ((∀ c ∈ names, c ∈ p.source.channels) ∧ names.Nodup) &&
    p.source.channels.filter (· ∈ names) ≠ s.subscription

/-- The Channels of a valid subscription, in the order of the source. -/
theorem perform_setSubscription (s : State C) (names : List C) :
    p.perform s (.setSubscription names) = if p.subscribes s names then
        welcome (resubscribe (p.source.channels.filter (· ∈ names)) s)
      else s := by
  rw [perform, setSubscription, subscribes]
  cases checkOpen s with
  | some problem => rfl
  | none => ?_
  by_cases hvalid : (∀ c ∈ names, c ∈ p.source.channels) ∧ names.Nodup
  · by_cases hsame : p.source.channels.filter (· ∈ names) = s.subscription
    · simp [if_pos hvalid, hsame, kept]
    · rw [if_pos (by simpa [hvalid.2, hsame] using hvalid.1)]
      simp [if_pos hvalid, hsame, kept]
  · rw [if_neg hvalid, decide_eq_false hvalid]
    rfl

theorem configure_keeps (r : Request) (s : State C) : (p.remember r (p.apply r s)).after = s.after ∧
      (p.remember r (p.apply r s)).seeks = s.seeks := by
  obtain ⟨anchor, q, hrate⟩ := p.setRate_eq r.rate (s.noteStart (starts r))
  obtain ⟨playing, stallTarget, ended, anchor, hplaying⟩ :=
    p.setPlaying_eq r.playing (p.seek r (p.setRate r.rate (s.noteStart (starts r))))
  rw [apply, hplaying, hrate]
  rcases p.seek_cases r _ with e | ⟨after, requestId, e⟩
  · rw [e]
    exact ⟨rfl, rfl⟩
  · rw [e]
    exact ⟨rfl, rfl⟩

omit p in
theorem subscribe_keeps (wanted : List C) (s : State C) :
    (welcome (resubscribe wanted s)).after = s.after ∧
      (welcome (resubscribe wanted s)).seeks = s.seeks := by
  rw [welcome]
  split_ifs
  · exact ⟨rfl, rfl⟩
  · exact ⟨rfl, rfl⟩

/-- Playback crosses Messages: it plays, and nothing is pending. -/
def Plays (s : State C) : Prop :=
  s.playing = true ∧ s.pending = false ∧ s.ended = false

/-- The queue has room for a Message. -/
def HasRoom (s : State C) : Prop :=
  0 < p.limits.maxMessages - s.queuedMessages ∧ 0 < p.limits.maxBytes - s.queuedBytes

/-- The read of a playing state that has room in its queue. -/
def readOf (s : State C) (h : p.HasRoom s) : Read C :=
  nextRead s (p.target s) (p.limits.maxMessages - s.queuedMessages)
    (p.limits.maxBytes - s.queuedBytes) h.1 h.2

/-- Buffering waits for a drain. -/
def Waits (s : State C) : Prop := s.stalled = true ∧ s.queuedMessages ≠ 0

/-- What an action can do to a state. -/
inductive Effect (s : State C) : Action C → State C → Prop
  /-- A command is refused or changes nothing, or there is nothing to pump. -/
  | kept (a : Action C) : Effect s a s
  | configure (r : Request) (haccepts : p.accepts s r = true) :
      Effect s (.configure r) (p.remember r (p.apply r s))
  | subscribe (names wanted : List C) (hsubscribes : p.subscribes s names = true)
      (hwanted : wanted = p.source.channels.filter (· ∈ names)) (hnodup : wanted.Nodup) :
      Effect s (.setSubscription names) (welcome (resubscribe wanted s))
  | disconnect : Effect s .disconnect s.disconnect
  | close : Effect s .close (p.stop { s.drop fun _ => true with closed := true })
  | drain (maxItems : Option Nat) : Effect s (.drain maxItems) (s.drain maxItems).2
  | fill (st : Staged C) (hwork : s.work = none) (hstaged : s.staged = some st) :
      Effect s .pumpBegin (p.fillStaged st.job st.items st.queued s)
  | takeJob (hpending : s.pending = true) : Effect s .pumpBegin (s.busyWith (some (.job s.nextJob)))
  /-- Nothing is pending and nothing plays, or buffering waits for a drain. -/
  | rest : Effect s .pumpBegin s.quiet
  | stall (hwork : s.work = none) (hstaged : s.staged = none) (hplays : Plays s) :
      Effect s .pumpBegin (p.stall (p.target s) s.quiet)
  | takeRead (hplays : Plays s) (hroom : p.HasRoom s) :
      Effect s .pumpBegin (s.quiet.busyWith (some (.read (p.readOf s hroom))))
  /-- The work is superseded, or the session is closed. -/
  | idle (a : Action C) : Effect s a (s.busyWith none)
  | commit (j : Job C) (hwork : s.work = some (.job j))
      (hgeneration : j.generation = s.generation) :
      Effect s .pumpEnd (p.commit j (p.source.reconstruct j) (s.busyWith none))
  | advance (r : Read C) (hwork : s.work = some (.read r))
      (hgeneration : r.generation = s.generation) (hplays : Plays s) : Effect s .pumpEnd
        (p.advance r (p.source.read r).1 (p.source.read r).2 (s.busyWith none))
  | fail (error : String) : Effect s (.pumpFail error) (p.fail error (s.busyWith none))

variable {p} in
theorem Effect.of_eq {s t u : State C} {a : Action C} (h : t = u) (he : p.Effect s a u) :
    p.Effect s a t := h ▸ he

theorem effect_pumpBegin (s : State C) : p.Effect s .pumpBegin (p.pumpBegin s) := by
  rw [pumpBegin]
  by_cases hhalted : s.closed ∨ s.work.isSome ∨ s.fault.isSome
  · rw [if_pos hhalted]
    exact .kept _
  rw [if_neg hhalted]
  have hwork : s.work = none := by simpa using (not_or.1 (not_or.1 hhalted).2).1
  cases hstaged : s.staged with
  | some st => exact .fill st hwork hstaged
  | none =>
    rw [State.takeJob]
    cases hpending : s.pending with
    | true => exact .takeJob hpending
    | false =>
      by_cases hquiet : s.playing = false ∨ s.pending = true ∨ s.ended = true
      · have h : p.takeRead s = (none, s.quiet) := if_pos hquiet
        exact .of_eq (by simp [h]) .rest
      have hplays : Plays s := by simpa [Plays] using hquiet
      by_cases hroom : p.HasRoom s
      · by_cases hwaits : Waits s
        · have h : p.takeRead s = (none, s.quiet) :=
            (if_neg hquiet).trans ((dif_pos hroom).trans (if_pos hwaits))
          exact .of_eq (by simp [h]) .rest
        · have h : p.takeRead s = (some (p.readOf s hroom), s.quiet) :=
            (if_neg hquiet).trans ((dif_pos hroom).trans (if_neg hwaits))
          exact .of_eq (by simp [h]) (.takeRead hplays hroom)
      · have h : p.takeRead s = (none, p.stall (p.target s) s.quiet) :=
          (if_neg hquiet).trans (dif_neg hroom)
        exact .of_eq (by simp [h]) (.stall hwork hstaged hplays)

theorem effect_pumpEnd (s : State C) : p.Effect s .pumpEnd (p.pumpEnd s) := by
  rw [pumpEnd]
  split_ifs
  · exact .idle _
  · cases hwork : s.work with
    | none => exact .kept _
    | some w =>
      cases w with
      | job j =>
        by_cases hg : j.generation = s.generation
        · exact .commit j hwork hg
        · exact .of_eq (if_pos hg) (.idle _)
      | read r =>
        by_cases hg : r.generation ≠ s.generation ∨ s.playing = false ∨
            s.pending = true ∨ s.ended = true
        · exact .of_eq (if_pos hg) (.idle _)
        · simp only [not_or, not_not, Bool.not_eq_false, Bool.not_eq_true] at hg
          exact .advance r hwork hg.1 hg.2

theorem perform_effect (s : State C) (a : Action C) : p.Effect s a (p.perform s a) := by
  cases a with
  | configure r =>
    rw [perform_configure]
    split_ifs with haccepts
    · exact .configure r haccepts
    · exact .kept _
  | setSubscription names =>
    rw [perform_setSubscription]
    split_ifs with hsubscribes
    · exact .subscribe names _ hsubscribes rfl (p.source.distinct.filter _)
    · exact .kept _
  | disconnect =>
    rw [perform, disconnect]
    split_ifs
    · exact .kept _
    · exact .disconnect
  | close =>
    rw [perform, close]
    split_ifs
    · exact .kept _
    · exact .close
  | drain maxItems => exact .drain maxItems
  | pumpBegin => exact p.effect_pumpBegin s
  | pumpEnd => exact p.effect_pumpEnd s
  | pumpFail error =>
    rw [perform, pumpFail]
    split_ifs
    · exact .idle _
    · exact .fail error
    · exact .kept _

variable {p} in
/-- A page is delivered, or its refused Message is, or it waits for a drain. -/
theorem advance_cases {r : Read C} {s : State C} (hplays : Plays s)
    (hgeneration : r.generation = s.generation) (items : List (Item C)) (complete : Bool) :
    refusedFirst items = none ∧ p.advance r items complete s =
      p.finish r.target items complete (deliver r.generation items s) ∨
    ∃ m reason, refusedFirst items = some (m, reason) ∧
      (r.queueEmpty = true ∧ p.advance r items complete s =
        p.finish r.target items complete (s.enqueue (.refused r.generation m false reason)) ∨
      r.queueEmpty = false ∧ p.advance r items complete s = p.stall r.target s) := by
  rw [advance, if_neg (by simp [hgeneration, hplays.1, hplays.2.1, hplays.2.2])]
  cases refusedFirst items with
  | none => exact .inl ⟨rfl, rfl⟩
  | some refused =>
    refine .inr ⟨refused.1, refused.2, rfl, ?_⟩
    cases r.queueEmpty with
    | true => exact .inl ⟨rfl, rfl⟩
    | false => exact .inr ⟨rfl, rfl⟩

end Playback

end SilFormal.Visualization
