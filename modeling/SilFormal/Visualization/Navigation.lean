import SilFormal.Library.Timeline

/-!
# Navigation of a recording

A Navigator answers two requests about the Messages of a prepared source: one
page of an interval of time, after a position, and the latest Message of a
Channel.  The Messages are in the order of their publication time and, at one
time, of their record index.  A Message that is larger than a limit is refused
in its place.
-/

namespace SilFormal.Visualization

open List

/-- `MIB`. -/
def mib : Nat := 2 ^ 20

/-- A place in the order of the Messages: a publication time and a record index. -/
abbrev Position := Nat ×ₗ Int

namespace Position

/-- A position from its parts. -/
def mk (time : Nat) (index : Int) : Position := toLex (time, index)

def time (p : Position) : Nat := (ofLex p).1

def index (p : Position) : Int := (ofLex p).2

@[simp]
theorem time_mk (t : Nat) (i : Int) : (mk t i).time = t := rfl

@[simp]
theorem index_mk (t : Nat) (i : Int) : (mk t i).index = i := rfl

theorem eq_mk (p : Position) : p = mk p.time p.index := rfl

theorem le_iff (p q : Position) : p ≤ q ↔ p.time < q.time ∨ p.time = q.time ∧ p.index ≤ q.index :=
  Prod.Lex.le_iff

theorem time_mono {p q : Position} (h : p ≤ q) : p.time ≤ q.time := by
  rcases (le_iff p q).1 h with h | h
  · exact h.le
  · exact h.1.le

end Position

/-- `_AFTER_INSTANT`: the record index after every Message of an instant. -/
def afterInstant : Int := 2 ^ 63 - 1

/-- `_BEFORE_INSTANT`: the record index before every Message of an instant. -/
def beforeInstant : Int := -1

/-- A position of an instant is at or before its end. -/
theorem Position.le_afterInstant {p : Position} (hindex : p.index ≤ afterInstant) {t : Nat}
    (ht : p.time ≤ t) : p ≤ .mk t afterInstant := by
  rw [Position.le_iff]
  simp only [Position.time_mk, Position.index_mk]
  omega

/-- `SourceMessage`. -/
structure SourceMessage (C : Type) where
  recordIndex : Nat
  channel : C
  publicationTimeNs : Nat
  data : List UInt8
deriving DecidableEq, Repr

namespace SourceMessage

variable {C : Type}

/-- `_key`. -/
def key (m : SourceMessage C) : Position :=
  .mk m.publicationTimeNs m.recordIndex

def size (m : SourceMessage C) : Nat := m.data.length

@[simp]
theorem time_key (m : SourceMessage C) : m.key.time = m.publicationTimeNs := rfl

@[simp]
theorem index_key (m : SourceMessage C) : m.key.index = m.recordIndex := rfl

end SourceMessage

/-- A prepared source: its Channels, and its Messages in the order of the index. -/
structure Source (C : Type) where
  channels : List C
  rows : List (SourceMessage C)
  /-- `Limits.max_message_bytes`. -/
  maxMessageBytes : Nat
  distinct : channels.Nodup
  declared : ∀ m ∈ rows, m.channel ∈ channels
  sorted : Timeline.Sorted SourceMessage.key rows
  indexed : ∀ m ∈ rows, (m.recordIndex : Int) < afterInstant

/-- `PageLimits`. -/
structure PageLimits where
  maxRows : Nat := 1000
  maxBytes : Nat := 8 * mib
  maxRows_pos : 0 < maxRows := by decide
  maxBytes_pos : 0 < maxBytes := by decide
deriving DecidableEq, Repr

/-- A Message that a request returns, or the text of its `LimitExceeded`. -/
structure Item (C : Type) where
  message : SourceMessage C
  refusal : Option String
deriving DecidableEq, Repr

namespace Item

variable {C : Type}

def channel (i : Item C) : C := i.message.channel

/-- `_key`. -/
def key (i : Item C) : Position := i.message.key

end Item

namespace Source

variable {C : Type} [DecidableEq C] (src : Source C)

/-- The Messages of one Channel. -/
def messagesOf (c : C) : List (SourceMessage C) :=
  src.rows.filter fun m => m.channel = c

/-- The Messages of a selection of Channels. -/
def select (channels : List C) : List (SourceMessage C) :=
  src.rows.filter fun m => m.channel ∈ channels

/-- `Description.start_ns` and `Description.end_ns`. -/
def bounds : Option (Nat × Nat) :=
  match src.rows.head?, src.rows.getLast? with
  | some first, some last => some (first.publicationTimeNs, last.publicationTimeNs)
  | _, _ => none

/-- `_rows_after`. -/
def rowsAfter (channels : List C) (after : Position) (lastNs count : Nat) :
    List (SourceMessage C) :=
  ((src.select channels).filter fun m =>
    decide (after < m.key) && decide (m.publicationTimeNs ≤ lastNs)).take count

/-- `_refusal`. -/
def refusal (m : SourceMessage C) (limit : String) : String :=
  s!"Message record_index {m.recordIndex} has {m.size} bytes; {limit}"

/-- The rows of a page, while its bytes are within the limits. -/
def takeRows (maxBytes : Nat) : Nat → List (SourceMessage C) → List (SourceMessage C)
  | _, [] => []
  | used, m :: rows =>
    if m.size > min maxBytes src.maxMessageBytes then []
    else if used + m.size > maxBytes then []
    else m :: takeRows maxBytes (used + m.size) rows

/-- `Navigator.messages` as `Playback._page` calls it: the Messages after a
position and up to a time, or the first of them, refused. -/
def page (channels : List C) (after : Position) (lastNs : Nat) (limits : PageLimits) :
    List (Item C) × Bool :=
  let rows := src.rowsAfter channels after lastNs (limits.maxRows + 1)
  match rows with
  | [] => ([], true)
  | first :: _ =>
    if first.size > min limits.maxBytes src.maxMessageBytes then
      ([⟨first, some (refusal first (s!"the page limit is {limits.maxBytes} and the " ++
        s!"Message limit {src.maxMessageBytes}"))⟩], false)
    else
      let taken := src.takeRows limits.maxBytes 0 (rows.take limits.maxRows)
      (taken.map fun m => ⟨m, none⟩, decide (taken.length = rows.length))

/-- `Navigator.snapshot` of one Channel. -/
def snapshot (c : C) (timeNs : Nat) : Option (Item C) :=
  ((src.messagesOf c).filter fun m => m.publicationTimeNs ≤ timeNs).getLast?.map fun m =>
    if m.size > src.maxMessageBytes then
      ⟨m, some (refusal m s!"the limit is {src.maxMessageBytes}")⟩
    else ⟨m, none⟩

theorem sorted_select (channels : List C) :
    Timeline.Sorted SourceMessage.key (src.select channels) :=
  src.sorted.filter _

theorem sorted_messagesOf (c : C) : Timeline.Sorted SourceMessage.key (src.messagesOf c) :=
  src.sorted.filter _

theorem select_singleton (c : C) : src.select [c] = src.messagesOf c := by
  simp [select, messagesOf]

/-- The Messages of a Channel of the selection. -/
theorem filter_select {channels : List C} {c : C} (hc : c ∈ channels) :
    (src.select channels).filter (fun m => decide (m.channel = c)) = src.messagesOf c := by
  rw [select, filter_filter]
  refine filter_congr fun m _ => ?_
  by_cases hm : m.channel = c
  · simp [hm, hc]
  · simp [hm]

omit [DecidableEq C] in
/-- A time bounds the Messages that are at or before the end of its instant. -/
theorem key_le_afterInstant_iff {m : SourceMessage C} (hm : m ∈ src.rows) (t : Nat) :
    m.key ≤ .mk t afterInstant ↔ m.publicationTimeNs ≤ t := by
  have hindex := src.indexed m hm
  rw [Position.le_iff]
  simp only [SourceMessage.time_key, SourceMessage.index_key, Position.time_mk, Position.index_mk]
  omega

/-- `_rows_after` takes an interval of the selection. -/
theorem rowsAfter_eq (channels : List C) (after : Position) (lastNs count : Nat) :
    src.rowsAfter channels after lastNs count =
      (Timeline.between SourceMessage.key (src.select channels) after
        (.mk lastNs afterInstant)).take count := by
  rw [rowsAfter]
  congr 1
  refine filter_congr fun m hm => ?_
  rw [decide_eq_decide.2 (src.key_le_afterInstant_iff (mem_of_mem_filter hm) lastNs)]

omit [DecidableEq C] in
theorem takeRows_prefix (maxBytes used : Nat) (rows : List (SourceMessage C)) :
    ∃ rest, src.takeRows maxBytes used rows ++ rest = rows := by
  induction rows generalizing used with
  | nil => exact ⟨[], rfl⟩
  | cons m rows ih =>
    rw [takeRows]
    split_ifs
    · exact ⟨m :: rows, rfl⟩
    · exact ⟨m :: rows, rfl⟩
    · obtain ⟨rest, hrest⟩ := ih (used + m.size)
      exact ⟨rest, congrArg (m :: ·) hrest⟩

/-- A page takes a part of the interval from its start; it has one unless the
interval is empty, and it is complete only when it has all. -/
theorem page_spec (channels : List C) (after : Position) (lastNs : Nat) (limits : PageLimits) :
    ∃ rest, (src.page channels after lastNs limits).1.map Item.message ++ rest =
        Timeline.between SourceMessage.key (src.select channels) after
          (.mk lastNs afterInstant) ∧
      ((src.page channels after lastNs limits).2 = true → rest = []) ∧
      ((src.page channels after lastNs limits).1 = [] → rest = []) := by
  rw [page, rowsAfter_eq]
  generalize Timeline.between SourceMessage.key (src.select channels) after
    (.mk lastNs afterInstant) = rows
  cases rows with
  | nil => exact ⟨[], rfl, fun _ => rfl, fun _ => rfl⟩
  | cons first rows =>
    simp only [take_succ_cons]
    split_ifs with hlarge
    · exact ⟨rows, rfl, by simp, by simp⟩
    · obtain ⟨n, hn⟩ : ∃ n, limits.maxRows = n + 1 :=
        ⟨limits.maxRows - 1, by have := limits.maxRows_pos; omega⟩
      obtain ⟨rest, hrest⟩ := src.takeRows_prefix limits.maxBytes 0
        ((first :: rows.take limits.maxRows).take limits.maxRows)
      have hrows : (first :: rows.take limits.maxRows).take limits.maxRows ++
          (first :: rows).drop limits.maxRows = first :: rows := by
        rw [show first :: rows.take limits.maxRows =
          (first :: rows).take (limits.maxRows + 1) from rfl, take_take,
          min_eq_left (Nat.le_succ _), take_append_drop]
      refine ⟨rest ++ (first :: rows).drop limits.maxRows, ?_, ?_, ?_⟩
      · simp only [map_map, Function.comp_def, map_id']
        rw [← append_assoc, hrest, hrows]
      · intro hcomplete
        have hlength := congrArg length hrest
        have hwhole := congrArg length hrows
        simp only [decide_eq_true_eq, length_cons, length_append,
          length_take] at hcomplete hlength hwhole
        refine append_eq_nil_iff.2 ⟨length_eq_zero_iff.1 ?_, length_eq_zero_iff.1 ?_⟩
        · omega
        · simp only [length_drop, length_cons]
          omega
      · -- The first row is within the limits, so the page has it.
        intro hempty
        have hfirst : ¬ first.size > limits.maxBytes := fun h => hlarge (by omega)
        simp [hn, takeRows, hlarge, hfirst] at hempty

end Source

end SilFormal.Visualization
