import SilFormal.Visualization.Navigation

/-!
# What playback reads from its Navigator

The pump takes a job or a read under the lock and asks the Navigator without
it.  A job reconstructs Channels at a position: it finds the last Message of
each at or before it.  A read takes one page of the Messages that the playhead
crosses.
-/

namespace SilFormal.Visualization

open Timeline List

/-- `_Job`. -/
structure Job (C : Type) where
  generation : Nat
  reset : Bool
  after : Position
  channels : List C
deriving DecidableEq

/-- `_Read`. -/
structure Read (C : Type) where
  generation : Nat
  channels : List C
  after : Position
  target : Nat
  limits : PageLimits
  queueEmpty : Bool
deriving DecidableEq

namespace Source

variable {C : Type} (src : Source C) {i : Item C} {after : Position}
  {items : List (Item C)} {c : C}

/-- The `for` loop over one page: the last item at or before `after`, and
whether one after it was met. -/
def scan (after : Position) (best : Option (Item C)) : List (Item C) → Option (Item C) × Bool
  | [] => (best, false)
  | item :: items => if item.key > after then (best, true) else scan after (some item) items

/-- The loop over a page finds the last item that is not after the position. -/
theorem scan_message (after : Position) (best : Option (Item C))
    (h : Sorted SourceMessage.key (items.map Item.message)) :
    (scan after best items).1.map Item.message =
      (upTo SourceMessage.key (items.map Item.message) after).getLast?.or
        (best.map Item.message) := by
  induction items generalizing best with
  | nil => simp [scan, upTo]
  | cons item items ih =>
    obtain ⟨hitem, hitems⟩ := pairwise_cons.1 h
    rw [scan]
    split_ifs with hafter
    · have hnone : upTo SourceMessage.key ((item :: items).map Item.message) after = [] := by
        refine upTo_eq_nil fun m hm => ?_
        rcases mem_cons.1 hm with rfl | hm
        · exact hafter
        · exact lt_trans hafter (hitem m hm)
      rw [hnone]
      rfl
    · have hle : item.message.key ≤ after := not_lt.1 hafter
      have hcons : upTo SourceMessage.key ((item :: items).map Item.message) after =
          item.message :: upTo SourceMessage.key (items.map Item.message) after :=
        filter_cons_of_pos (decide_eq_true hle)
      rw [ih _ hitems, hcons]
      cases hlast : (upTo SourceMessage.key (items.map Item.message) after).getLast? with
      | none => rw [getLast?_eq_none_iff.1 hlast]; rfl
      | some m => rw [getLast?_cons, hlast]; rfl

/-- The loop ends early when it meets an item after the position. -/
theorem scan_passed_iff (after : Position) (best : Option (Item C)) (items : List (Item C)) :
    (scan after best items).2 = true ↔ ∃ item ∈ items, after < item.key := by
  induction items generalizing best with
  | nil => simp [scan]
  | cons item items ih =>
    rw [scan]
    split_ifs with hafter
    · simpa using .inl hafter
    · rw [ih]
      simp [not_lt.1 hafter]

theorem mem_of_scan {best : Option (Item C)} (h : (scan after best items).1 = some i) :
    best = some i ∨ i ∈ items := by
  induction items generalizing best with
  | nil => exact .inl h
  | cons item items ih =>
    rw [scan] at h
    split_ifs at h
    · exact .inl h
    · rcases ih h with hitem | hmem
      · exact .inr (Option.some.inj hitem ▸ mem_cons_self)
      · exact .inr (mem_cons_of_mem _ hmem)

/-- The Messages before an instant. -/
theorem key_le_beforeInstant_iff (m : SourceMessage C) (t : Nat) :
    m.key ≤ .mk t beforeInstant ↔ m.publicationTimeNs < t := by
  rw [Position.le_iff]
  simp only [SourceMessage.time_key, SourceMessage.index_key, Position.time_mk,
    Position.index_mk, beforeInstant]
  omega

variable [DecidableEq C]

/-- Why `_predecessor` would not return. -/
inductive WalkError
  /-- `items[-1]` of a page without items raises an `IndexError`. -/
  | noItems
  /-- The loop does not end. -/
  | endless
deriving DecidableEq, Repr

/-- The `while` loop of `_predecessor`: walk the instant page by page. -/
def walk (c : C) (after : Position) :
    Nat → Option (Item C) → Position → Except WalkError (Option (Item C))
  | 0, _, _ => .error .endless
  | fuel + 1, best, position =>
    let page := src.page [c] position after.time {}
    let scanned := scan after best page.1
    match page.1.getLast? with
    | none => .error .noItems
    | some last =>
      if page.2 || scanned.2 then .ok scanned.1
      else walk c after fuel scanned.1 last.key

/-- `_predecessor`.  Each page of the walk has a row. -/
def predecessor (c : C) (after : Position) : Except WalkError (Option (Item C)) :=
  match src.snapshot c after.time with
  | none => .ok none
  | some found =>
    if found.key ≤ after then .ok (some found)
    else
      match src.walk c after src.rows.length none (.mk after.time beforeInstant) with
      | .error e => .error e
      | .ok (some best) => .ok (some best)
      | .ok none => .ok (if 0 < after.time then src.snapshot c (after.time - 1) else none)

/-- `_reconstruct`. -/
def reconstruct (job : Job C) : List (Item C) :=
  (job.channels.filterMap fun c => (src.predecessor c job.after).toOption.join).mergeSort
    fun i j => decide (i.key ≤ j.key)

/-- `_read`. -/
def read (r : Read C) : List (Item C) × Bool :=
  if r.channels = [] ∨ r.after.time > r.target ∨
      r.after.time = r.target ∧ r.after.index = afterInstant then ([], true)
  else
    src.page r.channels
      (if r.after.index = beforeInstant then .mk r.after.time beforeInstant else r.after)
      r.target r.limits

/-- A read that is not behind its target takes a part of the Messages up to it
from the start; it is complete only when it has all. -/
theorem read_spec (r : Read C) (h : r.after.time ≤ r.target) :
    ∃ rest, (src.read r).1.map Item.message ++ rest =
        between SourceMessage.key (src.select r.channels) r.after (.mk r.target afterInstant) ∧
      ((src.read r).2 = true → rest = []) := by
  rw [read]
  split_ifs with hnone hbefore
  · -- Without Channels, or at the target already, there is nothing to read.
    refine ⟨[], ?_, fun _ => rfl⟩
    rcases hnone with hnone | hnone | ⟨htime, hindex⟩
    · simp [hnone, select, between]
    · omega
    · rw [Position.eq_mk r.after, htime, hindex, between_self]
      rfl
  · obtain ⟨rest, hrest, hcomplete, -⟩ := src.page_spec r.channels
      (.mk r.after.time beforeInstant) r.target r.limits
    refine ⟨rest, ?_, hcomplete⟩
    rw [hrest, ← hbefore, ← Position.eq_mk]
  · obtain ⟨rest, hrest, hcomplete, -⟩ := src.page_spec r.channels r.after r.target r.limits
    exact ⟨rest, hrest, hcomplete⟩

/-- What a read takes is after its position and up to its target. -/
theorem mem_read {r : Read C} (h : r.after.time ≤ r.target) (hi : i ∈ (src.read r).1) :
    r.after < i.key ∧ i.key ≤ .mk r.target afterInstant := by
  obtain ⟨rest, hrest, -⟩ := src.read_spec r h
  have hmem : i.message ∈ (src.read r).1.map Item.message ++ rest :=
    mem_append_left _ (mem_map_of_mem hi)
  rw [hrest] at hmem
  exact (mem_between.1 hmem).2

/-- A page that starts with a refused Message has no other. -/
theorem page_refused {channels : List C} {lastNs : Nat} {limits : PageLimits}
    (hi : (src.page channels after lastNs limits).1.head? = some i) (hrefusal : i.refusal ≠ none) :
    (src.page channels after lastNs limits).1 = [i] := by
  rw [page] at hi ⊢
  cases hrows : src.rowsAfter channels after lastNs (limits.maxRows + 1) with
  | nil => simp [hrows] at hi
  | cons first rows =>
    simp only [hrows] at hi ⊢
    split_ifs at hi ⊢
    · simpa using hi
    · -- The items of the other pages are not refused.
      obtain ⟨m, -, rfl⟩ := mem_map.1 (mem_of_head? hi)
      exact absurd rfl hrefusal

theorem read_refused {r : Read C} (hi : (src.read r).1.head? = some i)
    (hrefusal : i.refusal ≠ none) : (src.read r).1 = [i] := by
  rw [read] at hi ⊢
  split_ifs at hi ⊢
  · cases hi
  · exact src.page_refused hi hrefusal
  · exact src.page_refused hi hrefusal

/-- A Message that `snapshot` finds is the last one up to the end of its instant. -/
theorem snapshot_message (c : C) (t : Nat) : (src.snapshot c t).map Item.message =
      latest SourceMessage.key (src.messagesOf c) (.mk t afterInstant) := by
  have hfilter : upTo SourceMessage.key (src.messagesOf c) (.mk t afterInstant) =
      (src.messagesOf c).filter fun m => decide (m.publicationTimeNs ≤ t) :=
    filter_congr fun m hm => decide_eq_decide.2
      (src.key_le_afterInstant_iff (mem_of_mem_filter hm) t)
  rw [snapshot, latest, Option.map_map]
  convert Option.map_id' using 2
  funext m
  simp only [Function.comp_apply]
  split_ifs <;> rfl

/-- The text of a refusal names the Message. -/
def Names (i : Item C) : Prop :=
  ∀ reason ∈ i.refusal, ∃ limit, reason = refusal i.message limit

theorem names_page {channels : List C} {lastNs : Nat} {limits : PageLimits}
    (hi : i ∈ (src.page channels after lastNs limits).1) : Names i := by
  rw [page] at hi
  split at hi
  · cases hi
  · split_ifs at hi
    · rw [mem_singleton.1 hi]
      rintro reason ⟨⟩
      exact ⟨_, rfl⟩
    · obtain ⟨m, -, rfl⟩ := mem_map.1 hi
      rintro reason ⟨⟩

theorem names_snapshot {t : Nat} (hi : src.snapshot c t = some i) : Names i := by
  obtain ⟨m, -, rfl⟩ := Option.map_eq_some_iff.1 hi
  split_ifs
  · rintro reason ⟨⟩
    exact ⟨_, rfl⟩
  · rintro reason ⟨⟩

/-- The walk returns the last Message of the rest of the instant that is not after
the position, if there is one after it. -/
theorem walk_message (c : C) (after : Position) {fuel : Nat} (best : Option (Item C))
    (position : Position) {m : SourceMessage C} (hm : after < m.key)
    (hmem : m ∈ between SourceMessage.key (src.messagesOf c) position
      (.mk after.time afterInstant)) (hfuel : (between SourceMessage.key (src.messagesOf c) position
      (.mk after.time afterInstant)).length ≤ fuel) (hbest : ∀ i ∈ best, Names i) :
    ∃ found, src.walk c after fuel best position = .ok found ∧ (∀ i ∈ found, Names i) ∧
      found.map Item.message = (upTo SourceMessage.key (between SourceMessage.key
        (src.messagesOf c) position (.mk after.time afterInstant)) after).getLast?.or
          (best.map Item.message) := by
  induction fuel generalizing best position with
  | zero =>
    rw [Nat.le_zero, length_eq_zero_iff] at hfuel
    simp [hfuel] at hmem
  | succ fuel ih =>
    obtain ⟨rest, hpage, hcomplete, hempty⟩ := src.page_spec [c] position after.time {}
    rw [select_singleton] at hpage
    have hsorted := (src.sorted_messagesOf c).filter
      fun m => decide (position < m.key) && decide (m.key ≤ .mk after.time afterInstant)
    rw [← between.eq_1, ← hpage] at hsorted
    obtain ⟨hitems, -, hcross⟩ := pairwise_append.1 hsorted
    have hscan := scan_message after best hitems
    have hpassed := scan_passed_iff after best (src.page [c] position after.time {}).1
    have hnames : ∀ i ∈ (scan after best (src.page [c] position after.time {}).1).1, Names i := by
      intro i hi
      rcases mem_of_scan hi with h | h
      · exact hbest i h
      · exact src.names_page h
    rw [walk]
    cases hlast : (src.page [c] position after.time {}).1.getLast? with
    | none =>
      -- A page without a row would be the whole rest of the instant.
      have hnil := getLast?_eq_none_iff.1 hlast
      rw [hempty hnil, hnil] at hpage
      rw [← hpage] at hmem
      simp at hmem
    | some last =>
      obtain ⟨items, hitemsEq⟩ := getLast?_eq_some_iff.1 hlast
      split_ifs with hdone
      · refine ⟨_, rfl, hnames, ?_⟩
        rw [hscan, ← hpage, upTo_append]
        -- What the page leaves out is after the position.
        have hrest : upTo SourceMessage.key rest after = [] := by
          rw [Bool.or_eq_true] at hdone
          rcases hdone with hdone | hdone
          · rw [hcomplete hdone]
            rfl
          · obtain ⟨item, hitem, hafter⟩ := hpassed.1 hdone
            exact upTo_eq_nil fun n hn => hafter.trans (hcross _ (mem_map_of_mem hitem) n hn)
        rw [hrest, append_nil]
      · rw [Bool.or_eq_true, not_or, hpassed] at hdone
        have hall : ∀ n ∈ (src.page [c] position after.time {}).1.map Item.message,
            n.key ≤ after := by
          intro n hn
          obtain ⟨item, hitem, rfl⟩ := mem_map.1 hn
          exact not_lt.1 fun h => hdone.2 ⟨item, hitem, h⟩
        have hsplit : between SourceMessage.key (src.messagesOf c) position
            (.mk after.time afterInstant) = items.map Item.message ++ last.message :: rest := by
          rw [← hpage, hitemsEq]
          simp
        have hrest := (src.sorted_messagesOf c).between_rest hsplit
        have hmrest : m ∈ rest := by
          rw [← hpage, mem_append] at hmem
          exact hmem.resolve_left fun h => absurd (hall m h) (not_le.2 hm)
        obtain ⟨found, hfound, hnamed, hmessage⟩ := ih _ last.key
          (by rw [Item.key, hrest]; exact hmrest)
          (by rw [Item.key, hrest]; rw [hsplit] at hfuel; simp at hfuel; omega) hnames
        refine ⟨found, hfound, hnamed, ?_⟩
        rw [hmessage, Item.key, hrest, hscan, ← hpage, upTo_append, getLast?_append,
          Option.or_assoc]

/-- A Message at or before a position is at or before the end of its instant. -/
theorem upTo_upTo_instant (c : C) (after : Position) :
    upTo SourceMessage.key (upTo SourceMessage.key (src.messagesOf c)
      (.mk after.time afterInstant)) after = upTo SourceMessage.key (src.messagesOf c) after := by
  rw [upTo, upTo, filter_filter]
  refine filter_congr fun m hm => ?_
  have hkey := src.key_le_afterInstant_iff (mem_of_mem_filter hm) after.time
  by_cases hle : m.key ≤ after
  · simpa [hle, hkey] using Position.time_mono hle
  · simp [hle]

/-- The Messages up to a position are those before its instant and those of the
instant up to it. -/
theorem upTo_eq_instant (c : C) (after : Position) :
    upTo SourceMessage.key (src.messagesOf c) after =
      upTo SourceMessage.key (src.messagesOf c) (.mk after.time beforeInstant) ++
        upTo SourceMessage.key (between SourceMessage.key (src.messagesOf c)
          (.mk after.time beforeInstant) (.mk after.time afterInstant)) after := by
  have hinstant : Position.mk after.time beforeInstant ≤ .mk after.time afterInstant :=
    (Position.le_iff _ _).2 (.inr ⟨rfl, by simp only [Position.index_mk]; decide⟩)
  have hbefore : ∀ m ∈ upTo SourceMessage.key (src.messagesOf c)
      (.mk after.time beforeInstant), m.key ≤ after := by
    intro m hm
    have htime := (key_le_beforeInstant_iff m after.time).1 (by simpa using of_mem_filter hm)
    exact (Position.le_iff _ _).2 (.inl htime)
  rw [← src.upTo_upTo_instant c after, ← (src.sorted_messagesOf c).upTo_between hinstant,
    upTo_append, upTo_eq_self hbefore]

/-- The instant before: `_latest` at the time before a position's. -/
theorem snapshot_before (c : C) (t : Nat) :
    (if 0 < t then src.snapshot c (t - 1) else none).map Item.message =
      latest SourceMessage.key (src.messagesOf c) (.mk t beforeInstant) := by
  split_ifs with ht
  · rw [snapshot_message, latest]
    congr 1
    refine filter_congr fun m hm => decide_eq_decide.2 ?_
    rw [src.key_le_afterInstant_iff (mem_of_mem_filter hm), key_le_beforeInstant_iff]
    omega
  · have hnil : upTo SourceMessage.key (src.messagesOf c) (.mk t beforeInstant) = [] := by
      refine filter_eq_nil_iff.2 fun m _ => ?_
      rw [decide_eq_true_eq, key_le_beforeInstant_iff]
      omega
    rw [latest, hnil]
    rfl

/-- `_predecessor` returns the last Message of a Channel at or before a position. -/
theorem predecessor_spec (c : C) (after : Position) :
    ∃ found, src.predecessor c after = .ok found ∧ (∀ i ∈ found, Names i) ∧
      found.map Item.message = latest SourceMessage.key (src.messagesOf c) after := by
  have hsnapshot := src.snapshot_message c after.time
  rw [predecessor]
  cases hfound : src.snapshot c after.time with
  | none =>
    rw [hfound] at hsnapshot
    have hnone := getLast?_eq_none_iff.1 hsnapshot.symm
    refine ⟨none, rfl, by rintro i ⟨⟩, ?_⟩
    rw [latest, ← upTo_upTo_instant, hnone]
    rfl
  | some found =>
    rw [hfound] at hsnapshot
    have hmem := mem_of_getLast? hsnapshot.symm
    by_cases hle : found.key ≤ after
    · -- The last Message of the instant is at or before the position.
      have hself := upTo_eq_self fun m hm =>
        le_trans (((src.sorted_messagesOf c).filter _).le_getLast hsnapshot.symm hm) hle
      simp only [hle]
      refine ⟨some found, rfl, fun i hi => src.names_snapshot (hfound.trans hi), ?_⟩
      rw [hsnapshot, latest, latest, ← src.upTo_upTo_instant c after]
      exact congrArg getLast? hself.symm
    · have hafter : after < found.message.key := not_le.1 hle
      obtain ⟨hrow, hupper⟩ := mem_filter.1 hmem
      have hlower : Position.mk after.time beforeInstant < found.message.key := by
        refine not_le.1 fun h => ?_
        have htime := Position.time_mono hafter.le
        have hbefore := (key_le_beforeInstant_iff _ _).1 h
        rw [SourceMessage.time_key] at htime
        omega
      have hlength : (between SourceMessage.key (src.messagesOf c)
          (.mk after.time beforeInstant) (.mk after.time afterInstant)).length ≤ src.rows.length :=
        (length_filter_le _ _).trans (length_filter_le _ _)
      obtain ⟨best, hbest, hnames, hwalk⟩ := src.walk_message c after none
        (.mk after.time beforeInstant) hafter
        (mem_between.2 ⟨hrow, hlower, by simpa using hupper⟩) hlength (by rintro i ⟨⟩)
      simp only [Option.map_none, Option.or_none] at hwalk
      simp only [hle, hbest]
      rw [latest, upTo_eq_instant, getLast?_append, ← hwalk]
      cases best with
      | some best => exact ⟨some best, rfl, hnames, rfl⟩
      | none =>
        refine ⟨_, rfl, fun i hi => ?_, src.snapshot_before c after.time⟩
        split_ifs at hi
        · exact src.names_snapshot hi
        · cases hi

/-- An item of a Channel is its last Message at or before the position. -/
theorem latest_of_predecessor {found : Option (Item C)} (h : src.predecessor c after = .ok found) :
    latest SourceMessage.key (src.messagesOf c) after = found.map Item.message := by
  obtain ⟨found', hfound, -, hmessage⟩ := src.predecessor_spec c after
  obtain rfl := Except.ok.inj (h.symm.trans hfound)
  exact hmessage.symm

theorem channel_of_predecessor (h : src.predecessor c after = .ok (some i)) : i.channel = c := by
  have hmem := mem_of_getLast? (src.latest_of_predecessor h)
  simpa [Item.channel] using of_mem_filter (mem_of_mem_filter hmem)

/-- `_predecessor` returns.  It finds the greatest Message of the Channel that is
not after the position, or the refusal that names it; nothing only if every
Message of the Channel is after the position. -/
theorem predecessor_greatest (c : C) (after : Position) :
    ∃ found, src.predecessor c after = .ok found ∧
      (found = none ↔ ∀ m ∈ src.messagesOf c, after < m.key) ∧
      ∀ i ∈ found, i.message ∈ src.messagesOf c ∧ i.message.key ≤ after ∧
        (∀ m ∈ src.messagesOf c, m.key ≤ after → m.key ≤ i.message.key) ∧ Names i := by
  obtain ⟨found, hfound, hnames, hlatest⟩ := src.predecessor_spec c after
  have hsorted := (src.sorted_messagesOf c).filter fun m => decide (m.key ≤ after)
  refine ⟨found, hfound, ?_, fun i hi => ?_⟩
  · rw [← Option.map_eq_none_iff, hlatest, latest, getLast?_eq_none_iff, upTo]
    simp
  · rw [Option.mem_def.1 hi] at hlatest
    obtain ⟨hmem, hle⟩ := mem_filter.1 (mem_of_getLast? hlatest.symm)
    refine ⟨hmem, by simpa using hle, fun m hm hmle => ?_, hnames i hi⟩
    exact hsorted.le_getLast hlatest.symm (mem_filter.2 ⟨hm, by simpa using hmle⟩)

theorem join_predecessor : (src.predecessor c after).toOption.join = some i ↔
      src.predecessor c after = .ok (some i) := by
  cases src.predecessor c after <;> simp [Except.toOption]

theorem mem_reconstruct {job : Job C} : i ∈ src.reconstruct job ↔
      ∃ c ∈ job.channels, src.predecessor c job.after = .ok (some i) := by
  simp [reconstruct, join_predecessor]

/-- A job finds at most one item of a Channel. -/
theorem nodup_reconstruct {job : Job C} (h : job.channels.Nodup) :
    ((src.reconstruct job).map Item.channel).Nodup := by
  have hperm := (mergeSort_perm (job.channels.filterMap fun c =>
    (src.predecessor c job.after).toOption.join) fun i j => decide (i.key ≤ j.key)).map
      Item.channel
  refine hperm.nodup_iff.2 (List.Pairwise.map _ (fun _ _ h => h) ?_)
  refine List.Pairwise.filterMap _ (fun c d hcd i hi j hj hij => ?_) h
  have hi := src.channel_of_predecessor (src.join_predecessor.1 hi)
  have hj := src.channel_of_predecessor (src.join_predecessor.1 hj)
  exact hcd (hi.symm.trans (hij.trans hj))

end Source

end SilFormal.Visualization
