import SilFormal.Visualization.Generations

/-!
# The room of the notification queue

The queue counts its Messages and their bytes as notifications enter and leave
it.  A read reserves the room that was free when it was taken.  While it is in
flight nothing else enters the queue of its generation, so its page still fits.
-/

namespace SilFormal.Visualization

open List

variable {C : Type}

namespace Source

variable (src : Source C)

theorem takeRows_bytes {maxBytes used : Nat} (rows : List (SourceMessage C)) (h : used ≤ maxBytes) :
    used + ((src.takeRows maxBytes used rows).map SourceMessage.size).sum ≤ maxBytes := by
  induction rows generalizing used with
  | nil => simpa [takeRows] using h
  | cons m rows ih =>
    rw [takeRows]
    split_ifs with hlarge hfull
    · simpa using h
    · simpa using h
    · have hrest := ih (Nat.le_of_not_lt hfull)
      rw [map_cons, sum_cons, ← Nat.add_assoc]
      exact hrest

variable [DecidableEq C]

/-- A page is within its limits, or it is one refused Message. -/
theorem page_fits (channels : List C) (after : Position) (lastNs : Nat) (limits : PageLimits) :
    (src.page channels after lastNs limits).1.length ≤ limits.maxRows ∧
      (Playback.refusedFirst (src.page channels after lastNs limits).1 = none →
        ((src.page channels after lastNs limits).1.map fun i => i.message.size).sum ≤
          limits.maxBytes) := by
  rw [page]
  generalize src.rowsAfter channels after lastNs (limits.maxRows + 1) = rows
  cases rows with
  | nil => simp
  | cons first rows =>
    simp only
    split_ifs
    · exact ⟨limits.maxRows_pos, by simp [Playback.refusedFirst]⟩
    · obtain ⟨rest, hrest⟩ := src.takeRows_prefix limits.maxBytes 0
        ((first :: rows).take limits.maxRows)
      have hlength := congrArg length hrest
      have hbytes := src.takeRows_bytes ((first :: rows).take limits.maxRows)
        (Nat.zero_le limits.maxBytes)
      rw [length_append, length_take] at hlength
      refine ⟨by rw [length_map]; omega, fun _ => ?_⟩
      rw [map_map]
      exact (Nat.zero_add _).symm.trans_le hbytes

theorem read_fits (r : Read C) :
    (src.read r).1.length ≤ r.limits.maxRows ∧ (Playback.refusedFirst (src.read r).1 = none →
        ((src.read r).1.map fun i => i.message.size).sum ≤ r.limits.maxBytes) := by
  rw [read]
  split_ifs
  · simp
  · exact src.page_fits _ _ _ _
  · exact src.page_fits _ _ _ _

end Source

/-! ### The counters -/

theorem Notification.counts_of_isStateChanged {n : Notification C} (h : n.isStateChanged = true) :
    n.messages = 0 ∧ n.bytes = 0 := by
  cases n with
  | stateChanged => exact ⟨rfl, rfl⟩
  | _ => cases h

namespace State

variable {s t : State C}

/-- The counters count what is in the queue. -/
structure Counted (s : State C) : Prop where
  messages : s.queuedMessages = (s.queue.map Notification.messages).sum
  bytes : s.queuedBytes = (s.queue.map Notification.bytes).sum

theorem Counted.enqueue (h : s.Counted) (n : Notification C) : (s.enqueue n).Counted := by
  by_cases hlast : s.replacesLast n = true
  · -- Neither the state that leaves nor the one that enters counts.
    obtain ⟨hn, m, hm, hstate⟩ : n.isStateChanged = true ∧
        ∃ m, s.queue.getLast? = some m ∧ m.isStateChanged = true := by
      simpa [replacesLast, Option.any_eq_true] using hlast
    obtain ⟨queue, hqueue⟩ := getLast?_eq_some_iff.1 hm
    have hzero := Notification.counts_of_isStateChanged hn
    have hzero' := Notification.counts_of_isStateChanged hstate
    constructor
    · simp [State.enqueue, hlast, h.messages, hqueue, hzero, hzero']
    · simp [State.enqueue, hlast, h.bytes, hqueue, hzero, hzero']
  · constructor
    · simp [State.enqueue, hlast, h.messages]
    · simp [State.enqueue, hlast, h.bytes]

theorem Counted.drop_le (h : s.Counted) (removes : Notification C → Bool) :
    (s.drop removes).queuedMessages ≤ s.queuedMessages ∧
      (s.drop removes).queuedBytes ≤ s.queuedBytes := by
  rw [h.messages, h.bytes]
  exact ⟨(filter_sublist.map _).sum_le_sum fun _ _ => Nat.zero_le _,
    (filter_sublist.map _).sum_le_sum fun _ _ => Nat.zero_le _⟩

theorem Counted.drain (h : s.Counted) (maxItems : Option Nat) : (s.drain maxItems).2.Counted := by
  have hsplit : ∀ f : Notification C → Nat, ∀ count,
      (s.queue.map f).sum - ((s.queue.take count).map f).sum =
        ((s.queue.drop count).map f).sum := by
    intro f count
    have hsum := sum_take_add_sum_drop (s.queue.map f) count
    rw [map_take, map_drop]
    omega
  constructor
  · rw [State.drain, h.messages]
    exact hsplit _ _
  · rw [State.drain, h.bytes]
    exact hsplit _ _

/-- The part of the state that the room of the queue depends on. -/
def stock (s : State C) := (s.queue, s.queuedMessages, s.queuedBytes, s.generation, s.work)

end State

namespace Playback

open State

variable (p : Playback C) {s t : State C}

/-- The queue is within its limits, and so it is with the page that is read. -/
structure WithinLimits (s : State C) : Prop where
  counted : s.Counted
  messages_le : s.queuedMessages ≤ p.limits.maxMessages
  bytes_le : s.queuedBytes ≤ p.limits.maxBytes
  read : ∀ r, s.work = some (.read r) → r.generation = s.generation →
    s.queuedMessages + r.limits.maxRows ≤ p.limits.maxMessages ∧
      s.queuedBytes + r.limits.maxBytes ≤ p.limits.maxBytes

variable {p}

/-- Notifications leave the queue, and no read is taken. -/
theorem WithinLimits.shrink (h : p.WithinLimits s) (hcounted : t.Counted)
    (hm : t.queuedMessages ≤ s.queuedMessages) (hb : t.queuedBytes ≤ s.queuedBytes)
    (hread : ∀ r, t.work = some (.read r) → r.generation = t.generation →
      s.work = some (.read r) ∧ r.generation = s.generation) : p.WithinLimits t := by
  refine ⟨hcounted, hm.trans h.messages_le, hb.trans h.bytes_le, fun r hr hg => ?_⟩
  obtain ⟨hrows, hbytes⟩ := h.read r (hread r hr hg).1 (hread r hr hg).2
  exact ⟨by omega, by omega⟩

theorem WithinLimits.of_stock (h : p.WithinLimits s) (e : t.stock = s.stock) :
    p.WithinLimits t := by
  simp only [stock, Prod.mk.injEq] at e
  obtain ⟨hq, hm, hb, hg, hw⟩ := e
  refine h.shrink ⟨?_, ?_⟩ hm.le hb.le ?_
  · rw [hm, hq, h.counted.messages]
  · rw [hb, hq, h.counted.bytes]
  · rw [hw, hg]
    exact fun r hr hgen => ⟨hr, hgen⟩

/-- A new generation supersedes the read in flight. -/
theorem WithinLimits.dropped [DecidableEq C] (h : p.WithinLimits s) (hc : s.Current)
    (removes : Notification C → Bool)
    (e : t.stock = { s.drop removes with generation := s.generation + 1 }.stock) :
    p.WithinLimits t := by
  have hle := h.counted.drop_le removes
  have hdrop : p.WithinLimits { s.drop removes with generation := s.generation + 1 } :=
    h.shrink ⟨rfl, rfl⟩ hle.1 hle.2 fun r hr hg => absurd hg (hc.read_ne hr)
  exact hdrop.of_stock e

/-- A notification enters the queue while no read is in flight. -/
theorem WithinLimits.enqueue (h : p.WithinLimits s) (hwork : s.work = none) {n : Notification C}
    (hm : s.queuedMessages + n.messages ≤ p.limits.maxMessages)
    (hb : s.queuedBytes + n.bytes ≤ p.limits.maxBytes) : p.WithinLimits (s.enqueue n) := by
  refine ⟨h.counted.enqueue n, ?_, ?_, fun r hr => by cases hwork.symm.trans hr⟩
  · simp only [State.enqueue]
    split_ifs
    · exact h.messages_le
    · exact hm
  · simp only [State.enqueue]
    split_ifs
    · exact h.bytes_le
    · exact hb

/-- A new state takes no room. -/
theorem WithinLimits.enqueueState (h : p.WithinLimits s) (hwork : s.work = none)
    (e : t.stock = s.stock) (state : PlaybackState C) :
    p.WithinLimits (t.enqueue (.stateChanged state)) := by
  have ht := h.of_stock e
  have hidle : t.work = s.work := congrArg (fun x => x.2.2.2.2) e
  exact ht.enqueue (hidle.trans hwork) ht.messages_le ht.bytes_le

theorem backfill_fits (h : p.WithinLimits s) {item : Item C} {generation : Nat} {n : Notification C}
    (hn : p.backfill s item generation = some n) :
    s.queuedMessages + n.messages ≤ p.limits.maxMessages ∧
      s.queuedBytes + n.bytes ≤ p.limits.maxBytes := by
  rw [backfill] at hn
  by_cases hfull : s.queuedMessages ≥ p.limits.maxMessages
  · rw [if_pos hfull] at hn
    cases hn
  · rw [if_neg hfull] at hn
    have hone : n.messages ≤ 1 := by cases n <;> simp [Notification.messages]
    refine ⟨by omega, ?_⟩
    cases hrefusal : item.refusal with
    | some reason =>
      rw [hrefusal] at hn
      cases hn
      exact h.bytes_le
    | none =>
      simp only [hrefusal] at hn
      split_ifs at hn with hlarge hmore
      · cases hn
        exact h.bytes_le
      · cases hn
        exact Nat.le_of_not_lt hmore

variable [DecidableEq C]

/-! ### Commands -/

theorem WithinLimits.configure (h : p.WithinLimits s) (hc : s.Current) (r : Request) :
    p.WithinLimits (p.remember r (p.apply r s)) := by
  obtain ⟨anchor, q, erate⟩ := p.setRate_eq r.rate (s.noteStart (starts r))
  have hrate : p.WithinLimits (p.setRate r.rate (s.noteStart (starts r))) :=
    h.of_stock (by rw [erate]; rfl)
  have hcrate : (p.setRate r.rate (s.noteStart (starts r))).Current :=
    hc.of_view (p.view_setRate r.rate _)
  have hseek : p.WithinLimits (p.seek r (p.setRate r.rate (s.noteStart (starts r)))) := by
    rcases p.seek_cases r (p.setRate r.rate (s.noteStart (starts r))) with e | ⟨after, id, e⟩
    · rw [e]
      exact hrate
    · rw [e]
      exact hrate.dropped hcrate (fun _ => true) rfl
  obtain ⟨playing, stallTarget, ended, anchor, e⟩ := p.setPlaying_eq r.playing
    (p.seek r (p.setRate r.rate (s.noteStart (starts r))))
  refine hseek.of_stock ?_
  rw [apply, e]
  rfl

theorem WithinLimits.subscribe (h : p.WithinLimits s) (hc : s.Current) {wanted : List C}
    (hwanted : wanted.Nodup) : p.WithinLimits (welcome (resubscribe wanted s)) := by
  have hdrop : p.WithinLimits (resubscribe wanted s) := h.dropped hc _ rfl
  rw [welcome]
  split_ifs
  · exact hdrop.dropped (current_resubscribe hc hwanted) (fun _ => true) rfl
  · exact hdrop

/-! ### The pump -/

theorem WithinLimits.fillStaged (h : p.WithinLimits s) (hwork : s.work = none) (job : Job C)
    (items : List (Item C)) (queued : Finset C) :
    p.WithinLimits (p.fillStaged job items queued s) := by
  induction items generalizing queued s with
  | nil =>
    have hsettle : p.WithinLimits (settle job queued s) := h.of_stock rfl
    exact hsettle.enqueue hwork hsettle.messages_le hsettle.bytes_le
  | cons item items ih =>
    rw [Playback.fillStaged]
    split
    · exact h.of_stock rfl
    · rename_i n hn
      obtain ⟨hm, hb⟩ := backfill_fits h hn
      have hnote : p.WithinLimits (s.note [item.channel] job.after) := h.of_stock rfl
      exact ih (hnote.enqueue hwork hm hb) hwork _

theorem WithinLimits.commit (h : p.WithinLimits s) (hwork : s.work = none) (job : Job C)
    (items : List (Item C)) : p.WithinLimits (p.commit job items s) := by
  rw [Playback.commit]
  split_ifs
  · exact h
  · refine WithinLimits.fillStaged (h.enqueue hwork ?_ ?_) hwork job items ∅
    · exact h.messages_le
    · exact h.bytes_le
  · exact h.fillStaged hwork job items ∅

theorem WithinLimits.stall (h : p.WithinLimits s) (hwork : s.work = none) (target : Nat) :
    p.WithinLimits (p.stall target s) := by
  rw [Playback.stall]
  split_ifs
  · exact h
  · exact h.enqueueState hwork (by rfl) _

theorem WithinLimits.finish (h : p.WithinLimits s) (hwork : s.work = none) (target : Nat)
    (items : List (Item C)) (complete : Bool) :
    p.WithinLimits (p.finish target items complete s) := by
  have hmove : p.WithinLimits (moveTo items s) ∧ (moveTo items s).work = none := by
    rw [moveTo]
    split
    · exact ⟨h, hwork⟩
    · exact ⟨h.of_stock rfl, hwork⟩
  obtain ⟨hmove, hidle⟩ := hmove
  rw [Playback.finish]
  split_ifs
  · rw [reach]
    split_ifs
    · exact hmove.enqueueState hidle (by rfl) _
    · exact hmove.enqueueState hidle (by rfl) _
    · exact hmove.of_stock rfl
  · exact hmove.of_stock rfl

/-- The page of a read takes the room that the read reserved. -/
theorem WithinLimits.advance (h : p.WithinLimits s) (hwork : s.work = none) {r : Read C}
    (hplays : Plays s) (hgeneration : r.generation = s.generation)
    (hm : s.queuedMessages + r.limits.maxRows ≤ p.limits.maxMessages)
    (hb : s.queuedBytes + r.limits.maxBytes ≤ p.limits.maxBytes) :
    p.WithinLimits (p.advance r (p.source.read r).1 (p.source.read r).2 s) := by
  obtain ⟨hrows, hbytes⟩ := p.source.read_fits r
  rcases advance_cases hplays hgeneration (p.source.read r).1 (p.source.read r).2 with
    ⟨hfirst, e⟩ | ⟨m, reason, -, ⟨-, e⟩ | ⟨-, e⟩⟩
  · have hsize := hbytes hfirst
    have hdelivered : p.WithinLimits (deliver r.generation (p.source.read r).1 s) := by
      rw [deliver_eq]
      refine ⟨⟨?_, ?_⟩, ?_, ?_, ?_⟩
      · simp [h.counted.messages, Function.comp_def, Notification.messages]
      · simp [h.counted.bytes, Function.comp_def, Notification.bytes]
      · exact (Nat.add_le_add_left hrows _).trans hm
      · exact (Nat.add_le_add_left hsize _).trans hb
      · exact fun r hr => by cases hwork.symm.trans hr
    exact e ▸ hdelivered.finish (by rw [deliver_eq]; exact hwork) _ _ _
  · have hone : s.queuedMessages + 1 ≤ p.limits.maxMessages :=
      (Nat.add_le_add_left r.limits.maxRows_pos _).trans hm
    have hrefused : p.WithinLimits (s.enqueue (.refused r.generation m false reason)) :=
      h.enqueue hwork hone h.bytes_le
    exact e ▸ hrefused.finish hwork _ _ _
  · exact e ▸ h.stall hwork _

omit [DecidableEq C] in
theorem WithinLimits.idle (h : p.WithinLimits s) : p.WithinLimits (s.busyWith none) :=
  ⟨⟨h.counted.messages, h.counted.bytes⟩, h.messages_le, h.bytes_le, by rintro r ⟨⟩⟩

/-- A report takes no room, also not that of a read in flight. -/
theorem WithinLimits.stop (h : p.WithinLimits s) : p.WithinLimits (p.stop s) := by
  have hpaused : Counted { s with playing := false } := ⟨h.counted.messages, h.counted.bytes⟩
  refine h.shrink (t := p.stop s) (hpaused.enqueue _) ?_ ?_ fun r hr hg => ⟨hr, hg⟩
  · simp [Playback.stop, State.enqueue, Notification.messages]
  · simp [Playback.stop, State.enqueue, Notification.bytes]

/-! ### Runs -/

theorem WithinLimits.effect {a : Action C} (h : p.WithinLimits s) (hc : s.Current)
    (he : p.Effect s a t) : p.WithinLimits t := by
  cases he with
  | kept => exact h
  | configure r => exact h.configure hc r
  | subscribe _ wanted _ _ hnodup => exact h.subscribe hc hnodup
  | disconnect => exact h.dropped hc (fun _ => true) rfl
  | close =>
    have hle := h.counted.drop_le fun _ => true
    exact WithinLimits.stop (h.shrink ⟨rfl, rfl⟩ hle.1 hle.2 fun r hr hg => ⟨hr, hg⟩)
  | drain maxItems =>
    exact h.shrink (h.counted.drain maxItems) (Nat.sub_le _ _) (Nat.sub_le _ _)
      fun r hr hg => ⟨hr, hg⟩
  | fill st hwork => exact h.fillStaged hwork _ _ _
  | takeJob =>
    exact ⟨⟨h.counted.messages, h.counted.bytes⟩, h.messages_le, h.bytes_le, by rintro r ⟨⟩⟩
  | rest => exact h.of_stock rfl
  | stall hwork => exact WithinLimits.stall (s := s.quiet) (h.of_stock rfl) hwork _
  | takeRead _ hroom =>
    refine ⟨⟨h.counted.messages, h.counted.bytes⟩, h.messages_le, h.bytes_le, ?_⟩
    rintro r ⟨⟩ -
    refine ⟨?_, ?_⟩
    · exact (Nat.add_le_add_left (min_le_left _ _) _).trans (Nat.add_sub_of_le h.messages_le).le
    · exact (Nat.add_sub_of_le h.bytes_le).le
  | idle => exact h.idle
  | commit j => exact h.idle.commit rfl _ _
  | advance r hwork hg hplays =>
    obtain ⟨hm, hb⟩ := h.read r hwork hg
    exact h.idle.advance rfl hplays hg hm hb
  | fail => exact WithinLimits.stop (h.idle.of_stock rfl)

theorem WithinLimits.run (h : p.WithinLimits s) (hc : s.Current) (actions : List (Nat × Action C)) :
    p.WithinLimits (p.run s actions) := by
  induction actions generalizing s with
  | nil => exact h
  | cons a actions ih =>
    have htick : p.WithinLimits { s with clock := s.clock + a.1 } := h.of_stock rfl
    exact ih (htick.effect (hc.of_view rfl) (p.perform_effect _ a.2)) (p.current_step hc a)

variable (p) in
/-- In every run the counters are the number of the queued Messages, Backfills and
refusals and the bytes of their payloads, and neither exceeds its limit. -/
theorem queue_within_limits (clock : Int) (actions : List (Nat × Action C)) :
    let s := p.run (p.initial clock) actions
    s.queuedMessages = (s.queue.map Notification.messages).sum ∧
      s.queuedBytes = (s.queue.map Notification.bytes).sum ∧
      s.queuedMessages ≤ p.limits.maxMessages ∧ s.queuedBytes ≤ p.limits.maxBytes := by
  have hinitial : p.WithinLimits (p.initial clock) :=
    ⟨⟨rfl, rfl⟩, Nat.zero_le _, Nat.zero_le _, by rintro r ⟨⟩⟩
  have h := hinitial.run (p.current_initial clock) actions
  exact ⟨h.counted.messages, h.counted.bytes, h.messages_le, h.bytes_le⟩

end Playback

end SilFormal.Visualization
