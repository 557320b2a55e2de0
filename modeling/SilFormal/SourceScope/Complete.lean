import SilFormal.SourceScope.Join

/-!
# An exact Activation is complete

If the intervals on the runner thread are disjoint, an Activation that is
reported as exact lists a call for every record in its interval, unless a call
that was entered in it returns after the end of a cut stream.
-/

namespace SilFormal.SourceScope

open List

/-! ## Finding an interval -/

namespace Item

variable {a b : Item}

theorem le_refl (a : Item) : a.le a := by
  simp [le]

theorem le_trans {c : Item} (hab : a.le b) (hbc : b.le c) : a.le c := by
  rw [le] at *
  omega

theorem le_total (a b : Item) : a.le b ∨ b.le a := by
  rw [le, le]
  omega

theorem le_antisymm (hab : a.le b) (hba : b.le a) : a = b := by
  simp only [le] at hab hba
  rw [mk.injEq]
  omega

instance : Std.Total Item.le := ⟨le_total⟩

instance : IsTrans Item Item.le := ⟨fun _ _ _ => le_trans⟩

theorem start_le_of_le (h : a.le b) : a.start ≤ b.start := by
  rw [le] at h
  omega

end Item

/-- In a sorted list, the items that start by a time come first. -/
theorem mem_takeWhile_start {l : List Item} (hl : l.Pairwise Item.le) {time : Nat} {item : Item}
    (hitem : item ∈ l) (hstart : item.start ≤ time) :
    item ∈ l.takeWhile fun i => i.start ≤ time := by
  induction l with
  | nil => cases hitem
  | cons first rest ih =>
    obtain ⟨hfirst, hrest⟩ := pairwise_cons.mp hl
    rcases mem_cons.mp hitem with rfl | hmem
    · rw [takeWhile_cons_of_pos (by simpa using hstart)]
      exact mem_cons_self
    · have hle : first.start ≤ time := (Item.start_le_of_le (hfirst item hmem)).trans hstart
      rw [takeWhile_cons_of_pos (by simpa using hle)]
      exact mem_cons_of_mem _ (ih hrest hmem)

/-- A time is found in the last interval that starts by it, if that one
reaches beyond it. -/
theorem findItem_eq_some_iff {l : List Item} (hl : l.Pairwise Item.le) {time value : Nat} :
    findItem l time = some value ↔ ∃ item ∈ l, item.value = value ∧ item.start ≤ time ∧
      time < item.stop ∧ ∀ other ∈ l, other.start ≤ time → other.le item := by
  have hlength : bisectRight (l.map Item.start) time =
      (l.takeWhile fun i => i.start ≤ time).length := by
    rw [bisectRight, takeWhile_map, length_map]
    rfl
  have hmem : ∀ {i}, i ∈ l → i.start ≤ time → i ∈ l.takeWhile fun i => i.start ≤ time :=
    fun hi hstart => mem_takeWhile_start hl hi hstart
  rw [findItem, hlength]
  rcases eq_nil_or_concat (l.takeWhile fun i => i.start ≤ time) with hnil | ⟨init, last, hlast⟩
  · rw [hnil]
    constructor
    · rintro ⟨⟩
    · rintro ⟨item, hitem, _, hstart, _⟩
      have hin := hmem hitem hstart
      rw [hnil] at hin
      cases hin
  · have hsplit : l = init ++ last :: l.dropWhile fun i => i.start ≤ time := by
      conv_lhs => rw [← takeWhile_append_dropWhile
        (l := l), hlast]
      simp
    have hget : l[init.length]? = some last := by
      rw [hsplit]
      simp
    have hlastStart : last.start ≤ time := by
      have hin : last ∈ l.takeWhile fun i => i.start ≤ time := hlast ▸ by simp
      simpa using all_eq_true.mp all_takeWhile last hin
    have hbelow : ∀ other ∈ l, other.start ≤ time → other.le last := by
      intro other hother hstart
      have hin := hmem hother hstart
      rw [hlast, concat_eq_append] at hin
      rcases mem_append.mp hin with hin | hin
      · rw [hsplit] at hl
        exact (pairwise_append.mp hl).2.2 other hin last mem_cons_self
      · rw [mem_singleton.mp hin]
        exact Item.le_refl last
    rw [hlast, concat_eq_append, length_append, length_singleton]
    simp only [hget, Option.bind_some]
    constructor
    · intro h
      split at h
      · rename_i hinside
        cases h
        exact ⟨last, hsplit ▸ by simp, rfl, hinside.1, hinside.2, hbelow⟩
      · cases h
    · rintro ⟨item, hitem, rfl, hstart, hstop, habove⟩
      have heq : item = last := Item.le_antisymm (hbelow item hitem hstart)
        (habove last (hsplit ▸ by simp) hlastStart)
      subst heq
      exact if_pos ⟨hstart, hstop⟩

namespace Capture

variable {i : Nat} {row : ActivationRow} {c : Call}

variable {x : Capture}

/-- The interval of an Activation. -/
def item (p : ActivationRow × Nat) : Item where
  start := p.1.beginNs
  stop := p.1.endNs
  value := p.2

theorem find_eq_some_iff {time : Nat} :
    x.find time = some i ↔ ∃ row, (row, i) ∈ x.rows ∧ row.tid = x.stream.runnerTid ∧
      row.beginNs ≤ time ∧ time < row.endNs ∧
      ∀ p ∈ x.rows, p.1.tid = x.stream.runnerTid → p.1.beginNs ≤ time →
        (item p).le (item (row, i)) := by
  have hmem : ∀ {a : Item}, a ∈ x.items.insertionSort Item.le ↔
      ∃ p ∈ x.rows, p.1.tid = x.stream.runnerTid ∧ item p = a := by
    intro a
    rw [(perm_insertionSort Item.le x.items).mem_iff, items, mem_map]
    simp only [mem_filter, decide_eq_true_eq, and_assoc]
    rfl
  rw [find, findItem_eq_some_iff (pairwise_insertionSort Item.le x.items)]
  constructor
  · rintro ⟨a, ha, rfl, hstart, hstop, habove⟩
    obtain ⟨⟨row, i⟩, hrow, htid, rfl⟩ := hmem.mp ha
    refine ⟨row, hrow, htid, hstart, hstop, fun p hp hptid hpstart => ?_⟩
    exact habove (item p) (hmem.mpr ⟨p, hp, hptid, rfl⟩) hpstart
  · rintro ⟨row, hrow, htid, hstart, hstop, habove⟩
    refine ⟨item (row, i), hmem.mpr ⟨_, hrow, htid, rfl⟩, rfl, hstart, hstop, ?_⟩
    intro a ha hastart
    obtain ⟨p, hp, hptid, rfl⟩ := hmem.mp ha
    exact habove p hp hptid hastart

/-- A position has one Activation. -/
theorem row_unique {row' : ActivationRow} (h : (row, i) ∈ x.rows) (h' : (row', i) ∈ x.rows) :
    row = row' := by
  have hget := (mem_zipIdx_iff_getElem?).mp h
  have hget' := (mem_zipIdx_iff_getElem?).mp h'
  rw [hget] at hget'
  exact Option.some.inj hget'

variable (x) in
/-- The intervals of different Activations on the runner thread share no time. -/
def Disjoint : Prop :=
  ∀ p ∈ x.rows, ∀ q ∈ x.rows, p.1.tid = x.stream.runnerTid → q.1.tid = x.stream.runnerTid →
    p.2 ≠ q.2 → ∀ time, ¬ (p.1.beginNs ≤ time ∧ time < p.1.endNs ∧
      q.1.beginNs ≤ time ∧ time < q.1.endNs)

/-- A time in the interval of an Activation is found there, unless an interval
begins after that one and by the time. -/
theorem find_eq_some_of_disjoint (hx : x.Disjoint) {time : Nat} (hrow : (row, i) ∈ x.rows)
    (hstart : row.beginNs ≤ time) (hstop : time < row.endNs) :
    x.find time = some i ↔ row.tid = x.stream.runnerTid ∧
      ∀ p ∈ x.rows, p.1.tid = x.stream.runnerTid →
        ¬ (row.beginNs < p.1.beginNs ∧ p.1.beginNs ≤ time) := by
  rw [find_eq_some_iff]
  constructor
  · rintro ⟨row', hrow', htid, _, _, habove⟩
    obtain rfl := row_unique hrow hrow'
    refine ⟨htid, fun p hp hptid hbetween => ?_⟩
    have hle := Item.start_le_of_le (habove p hp hptid hbetween.2)
    exact absurd hbetween.1 (Nat.not_lt.mpr hle)
  · rintro ⟨htid, hnone⟩
    refine ⟨row, hrow, htid, hstart, hstop, fun p hp hptid hpstart => ?_⟩
    rcases Nat.lt_or_ge row.beginNs p.1.beginNs with hlt | hge
    · exact absurd ⟨hlt, hpstart⟩ (hnone p hp hptid)
    · by_cases hpi : p.2 = i
      · obtain ⟨row', j⟩ := p
        obtain rfl : j = i := hpi
        obtain rfl := row_unique hrow hp
        exact Item.le_refl _
      · have hdisjoint : ¬ (p.1.beginNs ≤ time ∧ time < p.1.endNs ∧
            row.beginNs ≤ time ∧ time < row.endNs) := hx p hp (row, i) hrow hptid htid hpi time
        rw [Item.le]
        simp only [item]
        omega

/-! ## What the join makes of a call -/

theorem mem_keys (h : (row, i) ∈ x.selected) : i ∈ x.keys :=
  mem_map_of_mem h

/-- A call is attributed where both its ends are found. -/
theorem place_attributed_iff {atEntry atReturn : Option Nat} (hi : i ∈ x.keys) :
    (x.place atEntry atReturn).attributed = some i ↔ atEntry = some i ∧ atReturn = some i := by
  cases atEntry with
  | none =>
    cases atReturn with
    | none => simp [place]
    | some k => simp [place, crossing]
  | some j =>
    cases atReturn with
    | none => simp [place, crossing]
    | some k =>
      rw [place]
      by_cases hjk : j = k
      · subst hjk
        by_cases hj : j ∈ x.keys
        · simp [hj]
        · have hne : j ≠ i := fun heq => hj (heq ▸ hi)
          simp [hj, hne]
      · have hne : ¬ (j = i ∧ k = i) := fun h => hjk (h.1.trans h.2.symm)
        simp [hjk, crossing, hne]

/-- A call with an end in an Activation is attributed to it or flags it. -/
theorem place_flags {atEntry atReturn : Option Nat} (hi : i ∈ x.keys)
    (hend : atEntry = some i ∨ atReturn = some i) :
    (x.place atEntry atReturn).attributed = some i ∨
      ∃ flag, (i, flag) ∈ (x.place atEntry atReturn).flags := by
  cases atEntry with
  | none =>
    rw [hend.resolve_left (by simp)]
    refine .inr ⟨if x.stream.cut = true then .observationsIncomplete else .crossingCall, ?_⟩
    simp [place, crossing, hi]
  | some j =>
    cases atReturn with
    | none =>
      rw [hend.resolve_right (by simp)]
      refine .inr ⟨if x.stream.cut = true then .observationsIncomplete else .crossingCall, ?_⟩
      simp [place, crossing, hi]
    | some k =>
      by_cases hjk : j = k
      · subst hjk
        obtain rfl : j = i := by simpa using hend
        simp [place, hi]
      · refine .inr ⟨.crossingCall, ?_⟩
        simp only [place, hjk, if_false, crossing, mem_map, mem_filter]
        refine ⟨i, ⟨?_, by simpa using hi⟩, rfl⟩
        rcases hend with hj | hk
        · simp [Option.some.inj hj]
        · simp [Option.some.inj hk]

theorem join_attributed_iff (hi : i ∈ x.keys) :
    (x.join c).attributed = some i ↔ ¬ x.Beyond c ∧ some c.tid = x.stream.runnerTid ∧
      x.find c.entry.ns = some i ∧ x.find c.ret.ns = some i := by
  rw [join]
  by_cases hbeyond : x.Beyond c
  · simp [hbeyond]
  · by_cases htid : some c.tid = x.stream.runnerTid
    · rw [if_neg hbeyond, if_neg (not_not_intro htid), place_attributed_iff hi]
      simp [hbeyond, htid]
    · simp [hbeyond, htid]

theorem join_flags (hi : i ∈ x.keys) (hbeyond : ¬ x.Beyond c)
    (htid : some c.tid = x.stream.runnerTid)
    (hend : x.find c.entry.ns = some i ∨ x.find c.ret.ns = some i) :
    (x.join c).attributed = some i ∨ ∃ flag, (i, flag) ∈ (x.join c).flags := by
  rw [join, if_neg hbeyond, if_neg (not_not_intro htid)]
  exact place_flags hi hend

/-- An unpaired edge in an Activation flags it. -/
theorem unpairedEdge_flags {u : Unpaired} (hi : i ∈ x.keys) (htid : some u.tid = x.stream.runnerTid)
    (hfind : x.find u.ns = some i) : (i, .unbalancedScopes) ∈ (x.unpairedEdge u).flags := by
  simp [unpairedEdge, htid, hfind, hi]

/-! ## What an exact Activation has -/

theorem mem_listed : c ∈ x.listed i ↔ c ∈ (pair x.records).1 ∧ (x.join c).attributed = some i := by
  rw [listed, mem_insertionSort]
  simp only [joined, mem_filter, mem_map, decide_eq_true_eq]
  constructor
  · rintro ⟨_, ⟨⟨c, hc, rfl⟩, hattributed⟩, rfl⟩
    exact ⟨hc, hattributed⟩
  · rintro ⟨hc, hattributed⟩
    exact ⟨(c, x.join c), ⟨⟨c, hc, rfl⟩, hattributed⟩, rfl⟩

theorem mem_flags {flag : Flag} {e : Effect} (hflag : (i, flag) ∈ e.flags)
    (he : (∃ c ∈ (pair x.records).1, x.join c = e) ∨
      ∃ u ∈ (pair x.records).2, x.unpairedEdge u = e) : flag ∈ x.flags i := by
  refine mem_filterMap.mpr ⟨(i, flag), mem_flatMap.mpr ⟨e, ?_, hflag⟩, if_pos rfl⟩
  rw [mem_append]
  rcases he with ⟨c, hc, rfl⟩ | ⟨u, hu, rfl⟩
  · exact .inl (mem_map.mpr ⟨(c, x.join c), mem_map_of_mem hc, rfl⟩)
  · exact .inr (mem_map_of_mem hu)

/-- An Activation that is exact has no flag. -/
theorem flags_of_exact {calls : List CallRow} {counts : List (Nat × Nat)}
    (h : x.activation (row, i) = .exact calls counts) :
    (∀ flag, flag ∉ x.flags i) ∧ calls = nest (x.listed i) ∧ counts = countScopes (x.listed i) := by
  rw [activation] at h
  split at h
  · cases h
  · rename_i hnone
    cases h
    refine ⟨fun flag hflag => ?_, rfl, rfl⟩
    have hreason : flag ∈ activationReasons := by
      cases flag <;> simp [activationReasons]
    have hnot := find?_eq_none.mp hnone flag hreason
    simp [allFlags, hflag] at hnot

theorem foldl_nestStep (calls : List Call) (s : List (Nat × Nat) × List CallRow) :
    (calls.foldl nestStep s).2.map (fun row => (row.scope, row.entryNs, row.returnNs)) =
      s.2.map (fun row => (row.scope, row.entryNs, row.returnNs)) ++
        calls.map fun c => (c.scope, c.entry.ns, c.ret.ns) := by
  induction calls generalizing s with
  | nil => simp
  | cons c calls ih =>
    rw [foldl_cons, ih]
    simp [nestStep]

/-- The rows of an Activation are its calls. -/
theorem nest_map (calls : List Call) :
    (nest calls).map (fun row => (row.scope, row.entryNs, row.returnNs)) =
      calls.map fun c => (c.scope, c.entry.ns, c.ret.ns) :=
  foldl_nestStep calls ([], [])

variable (x) in
/-- A record of the runner thread in the interval of an Activation. -/
def Inside (row : ActivationRow) (item : Record × Nat) : Prop :=
  item ∈ x.records.zipIdx ∧ some item.1.tid = x.stream.runnerTid ∧
    row.beginNs ≤ item.1.ns ∧ item.1.ns < row.endNs

variable (x) in
/-- What is reported of an Activation is complete. -/
structure Complete (row : ActivationRow) (i : Nat) (calls : List CallRow)
    (counts : List (Nat × Nat)) : Prop where
  covers : ∀ item, x.Inside row item → ∃ c ∈ x.listed i, item ∈ c.ends
  contained : ∀ c ∈ x.listed i, (row.beginNs ≤ c.entry.ns ∧ c.entry.ns < row.endNs) ∧
    row.beginNs ≤ c.ret.ns ∧ c.ret.ns < row.endNs
  listed : calls.map (fun row => (row.scope, row.entryNs, row.returnNs)) =
    (x.listed i).map fun c => (c.scope, c.entry.ns, c.ret.ns)
  nodup : (counts.map (·.1)).Nodup
  counted : ∀ scope n, (scope, n) ∈ counts ↔
    n = (calls.filter fun row => row.scope = scope).length ∧ 0 < n

variable (x) in
/-- Every record of the runner thread in the interval of an Activation is found
in it, and is not the entry of a call that returns beyond what a cut stream
kept. -/
def Kept (row : ActivationRow) : Prop :=
  ∀ item, x.Inside row item → row.tid = x.stream.runnerTid ∧
    (∀ p ∈ x.rows, p.1.tid = x.stream.runnerTid →
      ¬ (row.beginNs < p.1.beginNs ∧ p.1.beginNs ≤ item.1.ns)) ∧
    ∀ c ∈ (pair x.records).1, c.entry.index = item.2 → ¬ x.Beyond c

theorem mem_rows_of_mem_selected {p : ActivationRow × Nat} (h : p ∈ x.selected) : p ∈ x.rows :=
  (mem_filter.mp h).1

/-- The end of an Activation is within what the stream kept. -/
theorem endNs_le_coverageEnd (h : (row, i) ∈ x.rows) : row.endNs ≤ x.stream.coverageEnd := by
  have hrow := mem_of_getElem? (mem_zipIdx_iff_getElem?.mp h)
  obtain ⟨r, hr, heq⟩ := mem_filterMap.mp hrow
  cases r with
  | other times => cases heq
  | activation a =>
    cases heq
    exact x.stream.covered _ hr _ (by simp [Row.times])

/-- The counts are the numbers of rows of each scope. -/
theorem mem_countScopes {calls : List Call} {scope n : Nat} : (scope, n) ∈ countScopes calls ↔
      n = ((nest calls).filter fun row => row.scope = scope).length ∧ 0 < n := by
  have hscopes : (nest calls).map CallRow.scope = calls.map Call.scope := by
    have hmap := congrArg (map (·.1)) (nest_map calls)
    rw [map_map, map_map] at hmap
    exact hmap
  have hcount : ((nest calls).filter fun row => row.scope = scope).length =
      (calls.map Call.scope).count scope := by
    rw [← hscopes, count, countP_map, countP_eq_length_filter]
    rfl
  rw [hcount, countScopes, mem_map]
  constructor
  · rintro ⟨scope', hscope', heq⟩
    cases heq
    rw [mem_insertionSort, mem_dedup] at hscope'
    exact ⟨rfl, count_pos_iff.mpr hscope'⟩
  · rintro ⟨rfl, hpos⟩
    refine ⟨scope, ?_, rfl⟩
    rw [mem_insertionSort, mem_dedup]
    exact count_pos_iff.mp hpos

theorem nodup_countScopes (calls : List Call) : ((countScopes calls).map (·.1)).Nodup := by
  rw [countScopes, map_map]
  refine List.Nodup.map (fun _ _ h => h) ?_
  exact (perm_insertionSort _ _).nodup_iff.mpr (nodup_dedup _)

/-- The calls of an Activation are in its interval. -/
theorem contained_of_mem_listed (hrow : (row, i) ∈ x.selected)
    (hc : c ∈ x.listed i) : (row.beginNs ≤ c.entry.ns ∧ c.entry.ns < row.endNs) ∧
      row.beginNs ≤ c.ret.ns ∧ c.ret.ns < row.endNs := by
  have hinside : ∀ {time}, x.find time = some i → row.beginNs ≤ time ∧ time < row.endNs := by
    intro time hfind
    obtain ⟨row', hrow', _, hstart, hstop, _⟩ := find_eq_some_iff.mp hfind
    obtain rfl := row_unique (mem_rows_of_mem_selected hrow) hrow'
    exact ⟨hstart, hstop⟩
  obtain ⟨_, _, hentry, hret⟩ := (join_attributed_iff (mem_keys hrow)).mp (mem_listed.mp hc).2
  exact ⟨hinside hentry, hinside hret⟩

/-- The ends of a call carry its thread. -/
theorem tid_of_mem_ends {item : Record × Nat} (h : item ∈ c.ends) :
    item.1.tid = c.tid ∧ (item.1.ns = c.entry.ns ∧ item.2 = c.entry.index ∨
      item.1.ns = c.ret.ns ∧ item.2 = c.ret.index) := by
  simp only [Call.ends, mem_cons, not_mem_nil, or_false] at h
  rcases h with rfl | rfl
  · exact ⟨rfl, .inl ⟨rfl, rfl⟩⟩
  · exact ⟨rfl, .inr ⟨rfl, rfl⟩⟩

/-- An Activation that is reported as exact is complete exactly when every
record of the runner thread in its interval is kept: the Activation is on the
runner thread, no interval begins between its begin and the record, and in a
cut stream the record is not the entry of a call that returns at or after the
end of the coverage. -/
theorem exact_complete_iff (hx : x.Disjoint) {row : ActivationRow} {i : Nat}
    (hrow : (row, i) ∈ x.selected) {calls : List CallRow} {counts : List (Nat × Nat)}
    (hexact : x.activation (row, i) = .exact calls counts) :
    x.Complete row i calls counts ↔ x.Kept row := by
  have hi := mem_keys hrow
  have hmem := mem_rows_of_mem_selected hrow
  obtain ⟨hflags, rfl, rfl⟩ := flags_of_exact hexact
  constructor
  · intro h item hitem
    obtain ⟨c, hc, hend⟩ := h.covers item hitem
    obtain ⟨hpaired, hattributed⟩ := mem_listed.mp hc
    obtain ⟨hbeyond, _, hentry, hret⟩ := (join_attributed_iff hi).mp hattributed
    have hfind : x.find item.1.ns = some i := by
      rcases (tid_of_mem_ends hend).2 with ⟨hns, _⟩ | ⟨hns, _⟩
      · rw [hns]
        exact hentry
      · rw [hns]
        exact hret
    obtain ⟨htid, hnone⟩ := (find_eq_some_of_disjoint hx hmem hitem.2.2.1 hitem.2.2.2).mp hfind
    refine ⟨htid, hnone, fun c' hc' hindex => ?_⟩
    obtain rfl := call_unique hc' hpaired (mem_cons_self) hend hindex
    exact hbeyond
  · intro hkept
    refine ⟨fun item hitem => ?_, fun c => contained_of_mem_listed hrow, nest_map _,
      nodup_countScopes _, fun scope n => mem_countScopes⟩
    obtain ⟨htid, hnone, hbeyond⟩ := hkept item hitem
    have hfind := (find_eq_some_of_disjoint hx hmem hitem.2.2.1 hitem.2.2.2).mpr ⟨htid, hnone⟩
    rcases mem_ends_or_edge hitem.1 with ⟨c, hc, hend⟩ | ⟨u, hu, hedge⟩
    · obtain ⟨hctid, hends⟩ := tid_of_mem_ends hend
      have hin : ¬ x.Beyond c := by
        rcases hends with ⟨_, hindex⟩ | ⟨hns, _⟩
        · exact hbeyond c hc hindex.symm
        · -- A return in the interval is before its end, and so within the coverage.
          rintro ⟨_, hcoverage⟩
          have hend := endNs_le_coverageEnd hmem
          have hstop := hitem.2.2.2
          omega
      have hrunner : some c.tid = x.stream.runnerTid := hctid ▸ hitem.2.1
      have hfound : x.find c.entry.ns = some i ∨ x.find c.ret.ns = some i := by
        rcases hends with ⟨hns, _⟩ | ⟨hns, _⟩
        · exact .inl (hns ▸ hfind)
        · exact .inr (hns ▸ hfind)
      rcases join_flags hi hin hrunner hfound with hattributed | ⟨flag, hflag⟩
      · exact ⟨c, mem_listed.mpr ⟨hc, hattributed⟩, hend⟩
      · exact absurd (mem_flags hflag (.inl ⟨c, hc, rfl⟩)) (hflags flag)
    · subst hedge
      have hflag := unpairedEdge_flags hi hitem.2.1 hfind
      exact absurd (mem_flags hflag (.inr ⟨u, hu, rfl⟩)) (hflags _)

/-! ## The totals -/

variable (x) in
/-- A call has one place in the document. -/
def Placed (e : Effect) : Prop :=
  e.attributed.isSome = !e.unattributed.isSome ∧ ∀ i, e.attributed = some i → i ∈ x.keys

theorem join_placed (c : Call) : x.Placed (x.join c) := by
  have hplace : ∀ atEntry atReturn, x.Placed (x.place atEntry atReturn) := by
    rintro (_ | i) (_ | j) <;> simp only [place, crossing, Placed]
    case some.some => split_ifs <;> simp_all
    all_goals simp
  unfold join
  split_ifs
  · simp [Placed]
  · simp [Placed]
  · exact hplace _ _

theorem nodup_keys : x.keys.Nodup := by
  have hrows : (x.rows.map (·.2)).Nodup := by
    rw [rows, zipIdx_map_snd]
    exact nodup_range'
  exact hrows.sublist (filter_sublist.map _)

theorem sum_length_listed : (x.keys.map fun i => (x.listed i).length).sum =
    (pair x.records).1.countP fun c => (x.join c).attributed.isSome := by
  have hlisted : ∀ i, (x.listed i).length =
      (pair x.records).1.countP fun c => (x.join c).attributed = some i := by
    intro i
    rw [listed, length_insertionSort, length_map, ← countP_eq_length_filter, joined, countP_map]
    rfl
  simp only [hlisted]
  induction (pair x.records).1 with
  | nil => simp
  | cons c calls ih =>
    simp only [countP_cons, sum_map_add, ih]
    congr 1
    cases h : (x.join c).attributed with
    | none => simp
    | some j =>
      -- One key is the position of the call.
      have hone := count_eq_one_of_mem nodup_keys ((join_placed c).2 j h)
      rw [← flatMap_singleton' x.keys, count_flatMap] at hone
      simpa [Function.comp_def, count_singleton, eq_comm (a := j)] using hone

theorem activation_calls (p : ActivationRow × Nat) :
    (x.activation p).calls.length + (x.activation p).withheldCalls = (x.listed p.2).length := by
  have hrows := congrArg length (nest_map (x.listed p.2))
  simp only [length_map] at hrows
  unfold activation
  split
  · exact Nat.zero_add _
  · exact hrows

/-- Every record is counted once: as an end of a paired call, which is listed,
withheld or unattributed, or as an unattributed edge. -/
theorem totals_balance (x : Capture) :
    x.totals.entries + x.totals.returns = x.totals.pairedCalls + x.totals.attributedCalls +
      x.totals.withheldCalls + x.totals.unattributed := by
  have hrecords : x.totals.entries + x.totals.returns = x.records.length := by
    rw [length_eq_countP_add_countP (·.edge = .entry)]
    congr 1
    refine countP_congr fun r _ => ?_
    cases r.edge <;> simp
  have hpaired : (pair x.records).1.length * 2 + (pair x.records).2.length = x.records.length := by
    simpa [Call.ends] using (pair_perm x.records).length_eq
  have hreports : x.totals.attributedCalls + x.totals.withheldCalls =
      (x.keys.map fun i => (x.listed i).length).sum := by
    simp only [totals, document, keys, map_map, ← sum_map_add]
    exact congrArg sum (map_congr_left fun p _ => activation_calls p)
  have hunattributed : x.totals.unattributed =
      (pair x.records).1.countP (fun c => (x.join c).unattributed.isSome) +
        (pair x.records).2.length := by
    simp [totals, document, unattributed, length_filterMap_eq_countP, joined, unpairedEdge,
      Function.comp_def]
  have hplaces := length_eq_countP_add_countP (fun c => (x.join c).attributed.isSome)
    (l := (pair x.records).1)
  simp only [sum_length_listed, (join_placed _).1, Bool.not_eq_true, Bool.not_eq_false',
    Bool.decide_eq_true] at hplaces hreports
  change _ = (pair x.records).1.length + _ + _ + _
  omega

/-! ## One Activation -/

/-- A completed Activation of ten nanoseconds on the runner thread. -/
def oneRow : ActivationRow where
  participant := "native"
  taskKind := some "native_task"
  task := "task"
  index := 0
  virtualTimeNs := 0
  tid := some 7
  beginNs := 0
  endNs := 10
  outcome := "completed"

/-- That Activation, and one call of the runner thread that is entered in it. -/
def oneCall (lines : List Line) (returnNs : Nat) : Capture where
  records := [{ ns := 5, tid := 7, scope := 1, edge := .entry },
    { ns := returnNs, tid := 7, scope := 1, edge := .ret }]
  lost := 0
  stream := (Stream.new (some 7)).parse (.row (.activation oneRow) :: lines)
  participant := "native"

theorem oneCall_disjoint (lines : List Line) (returnNs : Nat)
    (hrows : (oneCall lines returnNs).rows = [(oneRow, 0)]) :
    (oneCall lines returnNs).Disjoint := by
  intro p hp q hq _ _ hne
  rw [hrows] at hp hq
  rw [mem_singleton.mp hp, mem_singleton.mp hq] at hne
  exact absurd rfl hne

/-- The call returns in the Activation, and another one follows. -/
def twoRows : Capture :=
  oneCall [.row (.activation { oneRow with index := 1, beginNs := 10, endNs := 20 }),
    .last false false false] 8

/-- The first Activation lists the call that it contains, and is complete. -/
theorem exact_complete_iff_twoRows : twoRows.rows.length = 2 ∧ twoRows.Disjoint ∧
      twoRows.activation (oneRow, 0) = .exact [⟨1, 0, none, 5, 8, 3⟩] [(1, 1)] ∧
      twoRows.Kept oneRow ∧ twoRows.Complete oneRow 0 [⟨1, 0, none, 5, 8, 3⟩] [(1, 1)] := by
  have hdisjoint : twoRows.Disjoint := by
    intro p hp q hq _ _ hne time htime
    have hrow : ∀ p ∈ twoRows.rows, p.1.beginNs = p.2 * 10 ∧ p.1.endNs = p.2 * 10 + 10 := by decide
    have hp := hrow p hp
    have hq := hrow q hq
    omega
  have hkept : twoRows.Kept oneRow := by
    rintro item ⟨hmem, -⟩
    revert item
    decide
  exact ⟨by decide, hdisjoint, by decide, hkept,
    (exact_complete_iff hdisjoint (by decide) (by decide)).mpr hkept⟩

/-- The stream is cut after the Activation, and the call returns two nanoseconds
after its end: the Activation is exact, and lists no call for the record at five
nanoseconds. -/
theorem exact_without_entry : (oneCall [.last true false false] 12).Disjoint ∧
    (oneRow, 0) ∈ (oneCall [.last true false false] 12).selected ∧
    (oneCall [.last true false false] 12).activation (oneRow, 0) = .exact [] [] ∧
    (oneCall [.last true false false] 12).Inside oneRow
      ({ ns := 5, tid := 7, scope := 1, edge := .entry }, 0) ∧
    (oneCall [.last true false false] 12).listed 0 = [] := by
  refine ⟨oneCall_disjoint _ _ rfl, by decide, by decide, ?_, by decide⟩
  exact ⟨by decide, rfl, by decide, by decide⟩

end Capture

end SilFormal.SourceScope
