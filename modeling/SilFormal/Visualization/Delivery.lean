import SilFormal.Visualization.Accounts
import SilFormal.Visualization.Pacing

/-!
# Every crossed Message is delivered once

While nothing is pending, each subscribed Channel was sent exactly the source
Messages after the position of its last reconstruction and up to that of
playback.  The invariant also covers the Channels that wait: those whose staged
Backfill is queued are reconstructed already.
-/

namespace SilFormal.Visualization

open Timeline List

variable {C : Type} [DecidableEq C]

namespace Playback

variable {job : Job C} {s : State C} {items : List (Item C)} {queued : Finset C} {r : Read C}

open State

variable (p : Playback C)

/-- A reconstruction that is in part queued: the Channels of the queued items are
accounted for at the position of the job, and the items are the latest Messages
of the others that have one. -/
structure Filled (history : List (Entry C)) (st : Staged C) : Prop where
  queued : ∀ c ∈ st.queued, p.Accounted history st.job.after c
  items : ∀ i ∈ st.items, i.channel ∈ st.job.channels ∧ i.channel ∉ st.queued ∧
    latest SourceMessage.key (p.source.messagesOf i.channel) st.job.after = some i.message
  nodup : (st.items.map Item.channel).Nodup
  rest : ∀ c ∈ st.job.channels, c ∉ st.queued → c ∉ st.items.map Item.channel →
    latest SourceMessage.key (p.source.messagesOf c) st.job.after = none

/-- Each reconstructed Channel is accounted for up to the position of playback. -/
structure Told (s : State C) : Prop where
  exact : ∀ c ∈ s.subscription, c ∉ s.unreconstructed → p.Accounted s.history s.after c
  fresh : s.started = false → s.after = p.first ∧ s.seekAfter = p.first ∧ s.playing = false
  after_index : s.after.index ≤ afterInstant
  seek_index : s.seekAfter.index ≤ afterInstant

/-- The staged Backfill is right, too. -/
structure Delivered (s : State C) : Prop extends p.Told s where
  staged : ∀ st, s.staged = some st → p.Filled s.history st

variable {p}

/-- A job that was just taken is filled with all it finds. -/
theorem filled_reconstruct (history : List (Entry C)) (hnodup : job.channels.Nodup) :
    p.Filled history ⟨job, p.source.reconstruct job, ∅⟩ := by
  refine ⟨?_, ?_, p.source.nodup_reconstruct hnodup, ?_⟩
  · intro c hc
    exact absurd hc (Finset.notMem_empty c)
  · intro i hi
    obtain ⟨c, hc, hfound⟩ := p.source.mem_reconstruct.1 hi
    have hchannel := p.source.channel_of_predecessor hfound
    refine ⟨hchannel ▸ hc, Finset.notMem_empty _, ?_⟩
    rw [hchannel]
    exact p.source.latest_of_predecessor hfound
  · intro c hc _ hnot
    obtain ⟨found, hfound, -, hmessage⟩ := p.source.predecessor_spec c job.after
    rw [← hmessage]
    cases found with
    | none => rfl
    | some i =>
      have hi := p.source.mem_reconstruct.2 ⟨c, hc, hfound⟩
      exact absurd (p.source.channel_of_predecessor hfound ▸ mem_map_of_mem hi) hnot

/-- The account after a reconstruction with its Backfill. -/
theorem account_backfill {item : Item C} {generation : Nat} {n : Notification C}
    (hn : p.backfill s item generation = some n) (after : Position) (c : C) :
    account c ((s.note [item.channel] after).enqueue n).history =
      if item.channel = c then some ⟨after, !s.started, some item.message, []⟩
      else account c s.history := by
  show account c ((s.history ++ [.reconstructed item.channel after (!s.started)]) ++
    [.enqueued n]) = _
  rw [account_append, account_append]
  simp only [foldl_cons, Entry.update, update_backfill hn]
  split_ifs <;> rfl

/-- One more item is queued. -/
theorem Filled.queue {item : Item C} (h : p.Filled s.history ⟨job, item :: items, queued⟩)
    (hfresh : s.started = false → job.after = p.first) {n : Notification C}
    (hn : p.backfill s item job.generation = some n) :
    p.Filled ((s.note [item.channel] job.after).enqueue n).history
      ⟨job, items, insert item.channel queued⟩ := by
  obtain ⟨hfirst, hitems⟩ := nodup_cons.1 h.nodup
  obtain ⟨-, -, hlatest⟩ := h.items item mem_cons_self
  have hother : ∀ c, item.channel ≠ c →
      account c ((s.note [item.channel] job.after).enqueue n).history = account c s.history :=
    fun c hc => by rw [account_backfill hn, if_neg hc]
  refine ⟨?_, ?_, hitems, ?_⟩
  · intro c hc
    by_cases hchannel : item.channel = c
    · refine ⟨_, by rw [account_backfill hn, if_pos hchannel], exact_reconstructed ?_ ?_⟩
      · rw [← hchannel]
        exact hlatest.symm
      · intro hstarted
        exact hfresh (by simpa using hstarted)
    · have hqueued : c ∈ queued := (Finset.mem_insert.1 hc).resolve_left (Ne.symm hchannel)
      exact (h.queued c hqueued).of_account (hother c hchannel)
  · intro i hi
    obtain ⟨hmem, hnot, hlast⟩ := h.items i (mem_cons_of_mem _ hi)
    refine ⟨hmem, ?_, hlast⟩
    rw [Finset.mem_insert, not_or]
    exact ⟨fun e => hfirst (e ▸ mem_map_of_mem hi), hnot⟩
  · intro c hc hnot hitems
    rw [Finset.mem_insert, not_or] at hnot
    refine h.rest c hc hnot.2 ?_
    rw [map_cons, mem_cons, not_or]
    exact ⟨hnot.1, hitems⟩

omit [DecidableEq C] in
theorem jobAfter_of_fresh (hafter : s.after = p.first) (hseek : s.seekAfter = p.first) :
    s.jobAfter = p.first := by
  rw [jobAfter, hafter, hseek, ite_self]

theorem Told.jobAfter_index (h : p.Told s) : s.jobAfter.index ≤ afterInstant := by
  rw [jobAfter]
  split_ifs
  · exact h.seek_index
  · exact h.after_index

theorem account_commitStaged (job : Job C) (queued : Finset C) (s : State C) (c : C) :
    account c (p.commitStaged job queued s).history =
      if c ∈ job.channels ∧ c ∉ queued then some ⟨job.after, !s.started, none, []⟩
      else account c s.history := by
  show account c ((s.history ++ (job.channels.filter (· ∉ queued)).map
    fun d => .reconstructed d job.after (!s.started)) ++ [.enqueued _]) = _
  rw [account_append, account_note]
  simp only [foldl_cons, foldl_nil, Entry.update, Notification.update,
    mem_filter, decide_eq_true_eq]

/-- A commit accounts for every Channel at its position. -/
theorem Told.commitStaged (h : p.Told s) (hc : s.Current) (hjob : job = s.nextJob)
    (hfilled : p.Filled s.history ⟨job, [], queued⟩) :
    p.Delivered (p.commitStaged job queued s) := by
  have hreset : job.reset = s.resetPending := by rw [hjob]; rfl
  have hafter : job.after = s.jobAfter := by rw [hjob]; rfl
  have hposition : (p.commitStaged job queued s).after = job.after := by
    show (if job.reset then job.after else s.after) = job.after
    cases hr : job.reset with
    | true => rfl
    | false => rw [hafter, jobAfter, ← hreset, hr]; rfl
  refine ⟨⟨?_, ?_, ?_, h.seek_index⟩, by rintro st ⟨⟩⟩
  · intro c hmem _
    rw [hposition]
    have hsubscribed : c ∈ s.subscription := hmem
    by_cases hwaits : c ∈ s.unreconstructed
    · have hchannel : c ∈ job.channels := by
        rw [hjob]
        exact mem_filter.2 ⟨hsubscribed, by simpa using hwaits⟩
      by_cases hqueued : c ∈ queued
      · refine (hfilled.queued c hqueued).of_account ?_
        rw [account_commitStaged, if_neg fun h => h.2 hqueued]
      · -- A Channel without an item has no Message up to the position.
        refine ⟨_, by rw [account_commitStaged, if_pos ⟨hchannel, hqueued⟩],
          exact_reconstructed (hfilled.rest c hchannel hqueued (by simp)).symm ?_⟩
        intro hstarted
        obtain ⟨hfirst, hseek, -⟩ := h.fresh (by simpa using hstarted)
        rw [hafter, jobAfter_of_fresh hfirst hseek]
    · -- Without a Reset the other Channels keep their account.
      have hnot : c ∉ job.channels := by
        rw [hjob]
        exact fun hmem => hwaits (by simpa using of_mem_filter hmem)
      have hpending : s.resetPending = false := by
        cases hr : s.resetPending with
        | false => rfl
        | true =>
          rw [hc.reset hr, mem_toFinset] at hwaits
          exact absurd hsubscribed hwaits
      have hsame : job.after = s.after := by rw [hafter, jobAfter, hpending]; rfl
      rw [hsame]
      refine (h.exact c hsubscribed hwaits).of_account ?_
      rw [account_commitStaged, if_neg fun h => hnot h.1]
  · intro hstarted
    obtain ⟨hfirst, hseek, hplaying⟩ := h.fresh hstarted
    refine ⟨?_, hseek, hplaying⟩
    rw [hposition, hafter, jobAfter_of_fresh hfirst hseek]
  · rw [hposition, hafter]
    exact h.jobAfter_index

theorem Told.fillStaged (h : p.Told s) (hc : s.Current) (hjob : job = s.nextJob)
    (hfilled : p.Filled s.history ⟨job, items, queued⟩) :
    p.Delivered (p.fillStaged job items queued s) := by
  induction items generalizing queued s with
  | nil => exact h.commitStaged hc hjob hfilled
  | cons item items ih =>
    rw [Playback.fillStaged]
    cases hn : p.backfill s item job.generation with
    | none =>
      refine ⟨⟨h.exact, h.fresh, h.after_index, h.seek_index⟩, ?_⟩
      intro st hst
      obtain rfl := Option.some.inj hst
      exact hfilled
    | some n =>
      have hfresh : s.started = false → job.after = p.first := fun hstarted => by
        obtain ⟨hfirst, hseek, -⟩ := h.fresh hstarted
        rw [hjob]
        exact jobAfter_of_fresh hfirst hseek
      -- The Channel of the item waits, so no account of another kind changes.
      have hwaits : item.channel ∈ s.unreconstructed := by
        have hmem := (hfilled.items item mem_cons_self).1
        rw [hjob] at hmem
        simpa using of_mem_filter hmem
      refine ih
        ⟨?_, h.fresh, h.after_index, h.seek_index⟩ (hc.of_view rfl) hjob
        (hfilled.queue hfresh hn)
      intro c hmem hnot
      have hne : item.channel ≠ c := fun e => hnot (e ▸ hwaits)
      exact (h.exact c hmem hnot).of_account (by rw [account_backfill hn, if_neg hne])

theorem Told.commit (h : p.Told s) (hc : s.Current) (hjob : job = s.nextJob) :
    p.Delivered (p.commit job (p.source.reconstruct job) s) := by
  have hnodup : job.channels.Nodup := by
    rw [hjob]
    exact hc.nodup.filter _
  have hgeneration : ¬ job.generation ≠ s.generation := by rw [hjob]; exact not_not.2 rfl
  rw [Playback.commit]
  split_ifs
  · -- The Reset is no account's business.
    refine Told.fillStaged ⟨?_, h.fresh, h.after_index, h.seek_index⟩
      (hc.of_view rfl) hjob (filled_reconstruct _ hnodup)
    intro c hmem hnot
    refine (h.exact c hmem hnot).of_account ?_
    show account c (s.history ++ [.enqueued _]) = _
    rw [account_append]
    rfl
  · exact h.fillStaged hc hjob (filled_reconstruct _ hnodup)

/-! ### Playback moves -/

theorem account_finish (x : Nat) (items : List (Item C)) (complete : Bool) (s : State C) (c : C) :
    account c (p.finish x items complete s).history = account c s.history := by
  have hmove : (moveTo items s).history = s.history := by
    rw [moveTo]
    split <;> rfl
  rw [finish]
  split_ifs
  · rw [reach]
    split_ifs
    · exact (account_append c _ _).trans (congrArg (account c) hmove)
    · exact (account_append c _ _).trans (congrArg (account c) hmove)
    · exact congrArg (account c) hmove
  · exact congrArg (account c) hmove

theorem after_finish (x : Nat) (items : List (Item C)) (complete : Bool) (s : State C) :
    (p.finish x items complete s).after =
      if complete then .mk x afterInstant else (items.getLast?.map Item.key).getD s.after := by
  rw [finish]
  cases complete with
  | true =>
    simp only [reach]
    split_ifs <;> rfl
  | false =>
    rw [if_neg (by simp), moveTo]
    cases items.getLast? <;> rfl

/-- Where a page leaves playback. -/
def reached (p : Playback C) (r : Read C) : Position :=
  if (p.source.read r).2 then .mk r.target afterInstant
  else ((p.source.read r).1.getLast?.map Item.key).getD r.after

/-- The items of a page are what playback crosses. -/
theorem between_reached (h : r.after.time ≤ r.target) (hindex : r.after.index ≤ afterInstant) :
    r.after ≤ p.reached r ∧ (p.source.read r).1.map Item.message =
      between SourceMessage.key (p.source.select r.channels) r.after (p.reached r) := by
  obtain ⟨rest, hrest, hcomplete⟩ := p.source.read_spec r h
  rw [reached]
  cases hc : (p.source.read r).2 with
  | true =>
    rw [hcomplete hc, append_nil] at hrest
    exact ⟨Position.le_afterInstant hindex h, hrest⟩
  | false =>
    cases hlast : (p.source.read r).1.getLast? with
    | none =>
      rw [getLast?_eq_none_iff.1 hlast]
      exact ⟨le_rfl, (between_self _ _).symm⟩
    | some i =>
      obtain ⟨items, hitems⟩ := getLast?_eq_some_iff.1 hlast
      rw [hitems, map_append, append_assoc] at hrest
      have hpart := (p.source.sorted_select r.channels).between_head hrest.symm
      have hmem := p.source.mem_read h (mem_of_getLast? hlast)
      rw [hitems, map_append]
      exact ⟨hmem.1.le, hpart.symm⟩

theorem reached_index (h : r.after.time ≤ r.target) (hindex : r.after.index ≤ afterInstant) :
    (p.reached r).index ≤ afterInstant := by
  rw [reached]
  split_ifs
  · exact le_rfl
  · cases hlast : (p.source.read r).1.getLast? with
    | none => exact hindex
    | some i =>
      obtain ⟨rest, hrest, -⟩ := p.source.read_spec r h
      have hmem : i.message ∈ (p.source.read r).1.map Item.message ++ rest :=
        mem_append_left _ (mem_map_of_mem (mem_of_getLast? hlast))
      rw [hrest] at hmem
      exact (p.source.indexed _ (mem_of_mem_filter (mem_between.1 hmem).1)).le

/-- What `_advance` enqueued counts for each Channel, and playback moves on. -/
theorem Told.finish {t : State C} (h : p.Told s) (hplaying : s.playing = true)
    (hstaged : s.staged = none) (hafter : r.after = s.after)
    (hchannels : r.channels = s.subscription) (htime : r.after.time ≤ r.target)
    (hframe : t.frame = s.frame) (ht : t.after = s.after)
    (haccount : ∀ c, account c t.history = (account c s.history).map (·.withDelivered
      (((p.source.read r).1.map Item.message).filter fun m => m.channel = c))) :
    p.Delivered (p.finish r.target (p.source.read r).1 (p.source.read r).2 t) := by
  have hindex : r.after.index ≤ afterInstant := hafter ▸ h.after_index
  obtain ⟨hle, hitems⟩ := p.between_reached htime hindex
  have hposition : (p.finish r.target (p.source.read r).1 (p.source.read r).2 t).after =
      p.reached r := by
    rw [after_finish, reached, ht, hafter]
  have hkept := (p.frame_finish r.target (p.source.read r).1 (p.source.read r).2 t).trans hframe
  simp only [State.frame, Prod.mk.injEq] at hkept
  obtain ⟨-, hsub, hun, hst, -, hseek, -, -, hstarted⟩ := hkept
  refine ⟨⟨?_, ?_, hposition ▸ reached_index htime hindex, hseek ▸ h.seek_index⟩, ?_⟩
  · intro c hmem hnot
    rw [hsub] at hmem
    rw [hun] at hnot
    rw [hposition]
    refine (h.exact c hmem hnot).extend (hafter ▸ hle) ?_
      ((account_finish _ _ _ _ _).trans (haccount c))
    rw [hitems, filter_between, hchannels, p.source.filter_select hmem, hafter]
  · intro hfresh
    rw [hstarted] at hfresh
    exact absurd hplaying (by simp [(h.fresh hfresh).2.2])
  · intro st hst'
    rw [hst, hstaged] at hst'
    cases hst'

/-- Buffering is reported, and nothing moves. -/
theorem Told.stall (h : p.Told s) (hstaged : s.staged = none) (x : Nat) :
    p.Delivered (p.stall x s) := by
  rw [Playback.stall]
  split_ifs
  · exact ⟨h, by simp [hstaged]⟩
  · refine ⟨⟨?_, h.fresh, h.after_index, h.seek_index⟩, ?_⟩
    · intro c hmem hnot
      exact (h.exact c hmem hnot).of_account (account_append c _ _)
    · intro st hst
      cases hstaged.symm.trans hst

/-- A refused Message counts in its place. -/
theorem account_refused (c : C) (s : State C) (generation : Nat) (m : SourceMessage C)
    (reason : String) :
    account c (s.enqueue (.refused generation m false reason)).history =
      (account c s.history).map (·.withDelivered ([m].filter fun m => m.channel = c)) := by
  show account c (s.history ++ [.enqueued _]) = _
  rw [account_append]
  simp only [foldl_cons, Entry.update, Notification.update, filter_cons, decide_eq_true_eq]
  split_ifs
  · rfl
  · cases account c s.history <;> simp [Reconstruction.withDelivered]

omit [DecidableEq C] in
theorem refusedFirst_eq_some {m : SourceMessage C} {reason : String}
    (h : refusedFirst items = some (m, reason)) : items.head? = some ⟨m, some reason⟩ := by
  cases items with
  | nil => cases h
  | cons i items =>
    obtain ⟨message, refusal⟩ := i
    cases refusal with
    | none => cases h
    | some text =>
      cases h
      rfl

/-- What `_advance` does with a page of the current generation: it waits for the
queue to drain, or the items are enqueued and playback moves on. -/
theorem advance_account (hplays : Plays s) (hgeneration : r.generation = s.generation) :
    p.advance r (p.source.read r).1 (p.source.read r).2 s = p.stall r.target s ∨
    ∃ t, p.advance r (p.source.read r).1 (p.source.read r).2 s =
        p.finish r.target (p.source.read r).1 (p.source.read r).2 t ∧
      t.frame = s.frame ∧ t.after = s.after ∧
      ∀ c, account c t.history = (account c s.history).map (·.withDelivered
        (((p.source.read r).1.map Item.message).filter fun m => m.channel = c)) := by
  rcases advance_cases hplays hgeneration (p.source.read r).1 (p.source.read r).2 with
    ⟨-, e⟩ | ⟨m, reason, hfirst, ⟨-, e⟩ | ⟨-, e⟩⟩
  · refine .inr ⟨_, e, ?_⟩
    rw [deliver_eq]
    exact ⟨rfl, rfl, fun c => account_deliver c s.history r.generation _⟩
  · have hitems := p.source.read_refused (refusedFirst_eq_some hfirst) (by simp)
    refine .inr ⟨_, e, rfl, rfl, fun c => ?_⟩
    rw [hitems]
    exact account_refused c s r.generation m reason
  · exact .inl e

/-- `_advance` delivers what playback crosses. -/
theorem Told.advance (h : p.Told s) (hplays : Plays s) (hstaged : s.staged = none)
    (hafter : r.after = s.after) (hchannels : r.channels = s.subscription)
    (htime : r.after.time ≤ r.target) (hgeneration : r.generation = s.generation) :
    p.Delivered (p.advance r (p.source.read r).1 (p.source.read r).2 s) := by
  rcases p.advance_account hplays hgeneration with e | ⟨t, e, hframe, ht, haccount⟩
  · rw [e]
    exact h.stall hstaged r.target
  · rw [e]
    exact h.finish hplays.1 hstaged hafter hchannels htime hframe ht haccount

/-! ### Commands -/

theorem Delivered.of_view {t : State C} (h : p.Delivered s) (e : t.view = s.view)
    (hhistory : t.history = s.history)
    (hfresh : t.started = false → s.started = false ∧ (s.playing = false → t.playing = false)) :
    p.Delivered t := by
  simp only [view, Prod.mk.injEq] at e
  obtain ⟨-, hsub, hun, hst, -, hseek, hafter, -⟩ := e
  refine ⟨⟨?_, ?_, hafter ▸ h.after_index, hseek ▸ h.seek_index⟩, ?_⟩
  · rw [hsub, hun, hhistory, hafter]
    exact h.exact
  · intro hstarted
    obtain ⟨hs, hplaying⟩ := hfresh hstarted
    obtain ⟨hfirst, hseekFirst, hpaused⟩ := h.fresh hs
    exact ⟨hafter.trans hfirst, hseek.trans hseekFirst, hplaying hpaused⟩
  · rw [hst, hhistory]
    exact h.staged

theorem Delivered.startSeek (h : p.Delivered s) (after : Position) (requestId : Option String)
    (hindex : after.index ≤ afterInstant) (hfresh : s.started = false → after = p.first) :
    p.Delivered (s.startSeek after requestId) := by
  refine ⟨⟨?_, ?_, h.after_index, hindex⟩, by rintro st ⟨⟩⟩
  · -- Every subscribed Channel waits for the seek.
    intro c hmem hnot
    exact absurd (mem_toFinset.2 hmem) hnot
  · intro hstarted
    obtain ⟨hfirst, -, hpaused⟩ := h.fresh hstarted
    exact ⟨hfirst, hfresh hstarted, hpaused⟩

theorem Delivered.seek (h : p.Delivered s) {r : Request}
    (hstarted : starts r = true → s.started = true) : p.Delivered (p.seek r s) := by
  rw [Playback.seek]
  cases hx : r.positionNs with
  | some x =>
    refine h.startSeek _ _ le_rfl fun hfresh => ?_
    rw [hstarted (by simp [starts, hx])] at hfresh
    cases hfresh
  | none =>
    split_ifs with hrestart
    · exact h.startSeek _ _ (show beforeInstant ≤ afterInstant by decide) fun _ => rfl
    · exact h

theorem Delivered.setPlaying (h : p.Delivered s) (playing : Option Bool)
    (hstarted : playing = some true → s.started = true) : p.Delivered (p.setPlaying playing s) := by
  refine h.of_view (p.view_setPlaying playing s) ?_ ?_
  · obtain ⟨playing', stallTarget, ended, anchor, e⟩ := p.setPlaying_eq playing s
    rw [e]
  · rcases playing with _ | _ | _
    · exact fun hfresh => ⟨hfresh, id⟩
    · exact fun hfresh => ⟨hfresh, fun _ => rfl⟩
    · rw [Playback.setPlaying]
      split_ifs
      · exact fun hfresh => ⟨hfresh, id⟩
      · exact fun hfresh => ⟨hfresh, id⟩
      · intro hfresh
        cases (hstarted rfl).symm.trans hfresh

theorem Delivered.configure (h : p.Delivered s) (r : Request) :
    p.Delivered (p.remember r (p.apply r s)) := by
  have hnote : p.Delivered (s.noteStart (starts r)) :=
    h.of_view rfl rfl fun hfresh => ⟨(Bool.or_eq_false_iff.1 hfresh).1, id⟩
  obtain ⟨anchor, q, e⟩ := p.setRate_eq r.rate (s.noteStart (starts r))
  have hrate : p.Delivered (p.setRate r.rate (s.noteStart (starts r))) := by
    refine hnote.of_view (p.view_setRate _ _) (by rw [e]) ?_
    rw [e]
    exact fun hfresh => ⟨hfresh, id⟩
  have hstarted : starts r = true → (p.setRate r.rate (s.noteStart (starts r))).started = true := by
    intro hstarts
    rw [e]
    simp [noteStart, hstarts]
  have hplaying := (hrate.seek hstarted).setPlaying r.playing fun hp => by
    have hstarts := hstarted (by simp [starts, hp])
    rcases p.seek_cases r (p.setRate r.rate (s.noteStart (starts r))) with e | ⟨_, _, e⟩
    · rw [e]
      exact hstarts
    · rw [e]
      exact hstarts
  exact hplaying.of_view rfl rfl fun hfresh => ⟨hfresh, id⟩

/-- A Channel that does not wait is accounted for, if only in the staged Backfill. -/
theorem Delivered.of_not_waiting (h : p.Delivered s) (hc : s.Current) {c : C}
    (hmem : c ∈ s.subscription) (hnot : c ∉ s.waiting) : p.Accounted s.history s.after c := by
  by_cases hwaits : c ∈ s.unreconstructed
  · rw [waiting] at hnot
    cases hst : s.staged with
    | none =>
      rw [hst] at hnot
      exact absurd hwaits hnot
    | some st =>
      simp only [hst] at hnot
      obtain ⟨hjob, -⟩ := hc.staged st hst
      split_ifs at hnot with hreset
      · exact absurd hwaits hnot
      · have hqueued : c ∈ st.queued := by
          by_contra hq
          exact hnot (Finset.mem_sdiff.2 ⟨hwaits, hq⟩)
        have hafter : st.job.after = s.after := by
          rw [hjob] at hreset ⊢
          exact if_neg hreset
        exact hafter ▸ (h.staged st hst).queued c hqueued
  · exact h.exact c hmem hwaits

theorem Delivered.resubscribe (h : p.Delivered s) (hc : s.Current) (wanted : List C) :
    p.Delivered (resubscribe wanted s) := by
  refine ⟨⟨?_, h.fresh, h.after_index, h.seek_index⟩, by rintro st ⟨⟩⟩
  intro c hmem hnot
  have hsets : c ∉ s.waiting ∩ wanted.toFinset ∪ wanted.toFinset \ s.subscription.toFinset :=
    hnot
  rw [Finset.mem_union, not_or, Finset.mem_inter, Finset.mem_sdiff, not_and, not_and,
    mem_toFinset] at hsets
  exact h.of_not_waiting hc (by simpa using hsets.2 hmem) fun hw => hsets.1 hw hmem

theorem Delivered.welcome (h : p.Delivered s) : p.Delivered (welcome s) := by
  rw [Playback.welcome]
  split_ifs
  · refine (h.startSeek s.jobAfter none h.jobAfter_index fun hfresh => ?_).of_view rfl rfl
      fun hfresh => ⟨hfresh, id⟩
    obtain ⟨hfirst, hseek, -⟩ := h.fresh hfresh
    exact jobAfter_of_fresh hfirst hseek
  · exact h

theorem Delivered.disconnect (h : p.Delivered s) : p.Delivered s.disconnect := by
  refine ⟨⟨?_, ?_, h.after_index, h.seek_index⟩, by rintro st ⟨⟩⟩
  · intro c hmem
    cases hmem
  · intro hfresh
    obtain ⟨hfirst, hseek, -⟩ := h.fresh hfresh
    exact ⟨hfirst, hseek, rfl⟩

/-- That the session stops is reported, and nothing moves. -/
theorem Delivered.stop (h : p.Delivered s) : p.Delivered (p.stop s) := by
  refine ⟨⟨?_, ?_, h.after_index, h.seek_index⟩, ?_⟩
  · intro c hmem hnot
    exact (h.exact c hmem hnot).of_account (account_append c _ _)
  · intro hfresh
    obtain ⟨hfirst, hseek, -⟩ := h.fresh hfresh
    exact ⟨hfirst, hseek, rfl⟩
  · intro st hst
    have hfilled := h.staged st hst
    exact { hfilled with
      queued := fun c hc => (hfilled.queued c hc).of_account (account_append c _ _) }

theorem Delivered.busyWith (h : p.Delivered s) (work : Option (Work C)) :
    p.Delivered (s.busyWith work) :=
  ⟨⟨h.exact, h.fresh, h.after_index, h.seek_index⟩, h.staged⟩

theorem Delivered.effect (h : p.Delivered s) (hc : s.Current) (hpaced : p.Paced s) {a : Action C}
    (he : p.Effect s a t) : p.Delivered t := by
  have hquiet : p.Delivered s.quiet := h.of_view rfl rfl fun hfresh => ⟨hfresh, id⟩
  have hidle := h.busyWith none
  cases he with
  | kept => exact h
  | configure r => exact h.configure r
  | subscribe _ wanted => exact (h.resubscribe hc wanted).welcome
  | disconnect => exact h.disconnect
  | close => exact Delivered.stop (h.of_view rfl rfl fun hfresh => ⟨hfresh, id⟩)
  | drain => exact h.of_view rfl rfl fun hfresh => ⟨hfresh, id⟩
  | fill st _ hstaged =>
    exact h.toTold.fillStaged hc (hc.staged st hstaged).1 (h.staged st hstaged)
  | takeJob => exact h.busyWith _
  | rest => exact hquiet
  | stall _ hstaged => exact hquiet.toTold.stall hstaged _
  | takeRead => exact hquiet.busyWith _
  | idle => exact hidle
  | commit j hwork hg => exact hidle.toTold.commit hc.idle (hc.job j hwork hg).1
  | advance r hwork hg hplays =>
    obtain ⟨hafter, hchannels, -⟩ := hc.read r hwork hg
    exact hidle.toTold.advance hplays (hc.not_staged hplays.2.1) hafter hchannels
      (hpaced.read_time hc hwork hg) hg
  | fail => exact Delivered.stop (hidle.of_view rfl rfl fun hfresh => ⟨hfresh, id⟩)

end Playback

end SilFormal.Visualization
