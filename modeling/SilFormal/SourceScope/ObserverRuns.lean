import SilFormal.SourceScope.Observer

/-!
# What the observer loses

Every call is counted once, and the slots hold what was recorded, in every
interleaving.  The early drops are added to the header once, during the
activation.  A thread that read the mode before the activation ended and counts
its drop afterwards counts it where nothing looks any more.
-/

namespace SilFormal.SourceScope.Observer

open List

variable {T : Type} {capacity : Nat} {tid : T → Nat} {s : Memory T}

/-! ## Assertions -/

namespace Pc

/-- The call of the thread is not counted yet. -/
def uncounted : Pc → Nat
  | idle | storeStopped _ | unlock _ => 0
  | _ => 1

/-- The thread holds the lock. -/
def critical : Pc → Bool
  | loadUsed _ _ | writeSlot _ _ _ | storeRecords _ _ _ | countFull _ | storeStopped _
  | unlock _ => true
  | _ => false

/-- The thread activates the observer. -/
def activating : Pc → Bool
  | exchange _ | storeContended _ _ | publish _ | storeState _ | storeMode _ => true
  | _ => false

/-- The thread has seen the observer after its activation. -/
def seen : Pc → Bool
  | countStopped _ | clock _ | countClock _ | lock _ _ | countContended _ | loadUsed _ _
  | writeSlot _ _ _ | storeRecords _ _ _ | countFull _ | storeStopped _ | unlock _ => true
  | _ => false

/-- The thread has seen that the activation has begun. -/
def begun : Pc → Bool
  | reload _ | countEarly _ => true
  | _ => false

/-- The thread is about to count an early drop. -/
def dropsEarly : Pc → Bool
  | countEarly _ => true
  | _ => false

end Pc

/-- How far the activation is. -/
def Phase (s : Memory T) : Pc → Prop
  | .exchange _ => s.merged = false ∧ s.published = false ∧ s.droppedContended = 0 ∧ s.held = 0
  | .storeContended _ drops =>
    s.merged = true ∧ s.published = false ∧ s.droppedContended = 0 ∧ s.held = drops
  | .publish _ => s.merged = true ∧ s.published = false ∧ s.held = 0
  | .storeState _ | .storeMode _ => s.merged = true ∧ s.published = true ∧ s.held = 0
  | _ => True

/-- What the holder of the lock knows of the slots. -/
def Section (capacity : Nat) (tid : T → Nat) (t : T) (s : Memory T) : Pc → Prop
  | .loadUsed _ _ | .countFull _ | .storeStopped _ | .unlock _ => s.writing = false
  | .writeSlot _ _ used => s.writing = false ∧ used = s.records ∧ used < capacity
  | .storeRecords c now used => s.writing = true ∧ used = s.records ∧ used < capacity ∧
      s.writes.getLast? = some (used, recordOf tid t c now)
  | _ => True

/-- The counters count the calls. -/
structure Account (s : Memory T) : Prop where
  account : s.records + s.droppedFull + s.droppedContended + s.clockErrors + s.earlyDrops + s.held =
    s.outcomes.length
  merged : s.merged = true → s.earlyDrops = s.late
  unmerged : s.merged = false → s.late = 0

/-- What the mode says. -/
structure Modes (s : Memory T) : Prop where
  busy : s.busy = s.owner.isSome
  activating : s.mode = .activating ↔ s.activator.isSome = true
  notDormant : s.mode ≠ .dormant
  pending : s.mode = .pending → s.merged = false ∧ s.published = false ∧ s.droppedContended = 0 ∧
    s.earlyDrops = 0 ∧ s.held = 0
  started : s.mode = .recording ∨ s.mode = .stopped →
    s.merged = true ∧ s.published = true ∧ s.held = 0

/-- The slots hold what was recorded. -/
structure Filled (capacity : Nat) (s : Memory T) : Prop where
  free : s.owner = none → s.writing = false
  written : s.writes.length = s.records + s.writing.toNat
  indices : s.writes.map (·.1) = List.range s.writes.length
  slots : ∀ k, s.slots k = (s.writes[k]?).map (·.2)
  recorded : s.outcomes.filterMap (·.2.record?) = (s.writes.take s.records).map (·.2)
  bounded : s.records ≤ capacity

/-- The assertion of the memory. -/
structure Global (capacity : Nat) (s : Memory T) : Prop where
  account : Account s
  modes : Modes s
  filled : Filled capacity s
  fault : s.fault = false

/-! ## Calls and slots -/

/-- A call that is not recorded leaves the slots as they were. -/
theorem Filled.counted (h : Filled capacity s) (t : T) {o : Outcome} (ho : o.record? = none) :
    Filled capacity (s.counted t o) := by
  refine { h with recorded := ?_ }
  simp only [Memory.counted, filterMap_append, filterMap_cons, ho, filterMap_nil, append_nil]
  exact h.recorded

/-- The slot after those that are recorded is written. -/
theorem Filled.write (h : Filled capacity s) (hw : s.writing = false) {t : T}
    (ho : s.owner = some t) (r : Record) :
    Filled capacity
      { s with
        slots := Function.update s.slots s.records (some r)
        writing := true
        writes := s.writes ++ [(s.records, r)] } := by
  have hlen : s.writes.length = s.records := by simpa [hw] using h.written
  refine ⟨by simp [ho], by simp [hlen], ?_, fun k => ?_, ?_, h.bounded⟩
  · simp [h.indices, hlen, range_succ]
  · by_cases hk : k = s.records
    · simp [hk, ← hlen]
    · rcases Nat.lt_or_gt_of_ne hk with hlt | hgt
      · rw [← hlen] at hlt
        simp [Function.update_of_ne hk, h.slots, getElem?_append_left hlt]
      · have hnone : (s.writes ++ [(s.records, r)])[k]? = none :=
          getElem?_eq_none (by simp [hlen]; omega)
        have hnone' : s.writes[k]? = none := getElem?_eq_none (by omega)
        simp [Function.update_of_ne hk, h.slots, hnone, hnone']
  · rw [h.recorded, take_append_of_le_length (Nat.le_of_eq hlen.symm)]

/-- The slot that was written is counted. -/
theorem Filled.count (h : Filled capacity s) (hw : s.writing = true) (hlt : s.records < capacity)
    {r : Record} (hlast : s.writes.getLast? = some (s.records, r)) (t : T) :
    Filled capacity
      { s with
        outcomes := s.outcomes ++ [(t, .recorded r)]
        records := s.records + 1
        writing := false } := by
  have hlen : s.writes.length = s.records + 1 := by simpa [hw] using h.written
  refine ⟨fun _ => rfl, hlen, h.indices, h.slots, ?_, hlt⟩
  obtain ⟨before, hbefore⟩ := getLast?_eq_some_iff.1 hlast
  have hrec : before.length = s.records := by simpa [hbefore] using hlen
  have hfirst : s.outcomes.filterMap (·.2.record?) = before.map (·.2) := by
    rw [h.recorded, hbefore, ← hrec, take_left]
  have hall : s.writes.take (s.records + 1) = before ++ [(s.records, r)] := by
    rw [← hlen, take_length, hbefore]
  simp only [filterMap_append, hfirst, hall, map_append]
  rfl

theorem Filled.slots_eq (h : Filled capacity s) :
    (List.range s.records).map s.slots = (s.outcomes.filterMap (·.2.record?)).map some := by
  have hle : s.records ≤ s.writes.length := by rw [h.written]; omega
  rw [h.recorded]
  refine ext_getElem (by simp [hle]) fun k hk _ => ?_
  have hk : k < s.records := by simpa using hk
  simp [h.slots, getElem?_eq_getElem (Nat.lt_of_lt_of_le hk hle)]

theorem global_initial : Global capacity (Memory.initial : Memory T) where
  account := ⟨rfl, nofun, fun _ => rfl⟩
  modes := ⟨rfl, by simp [Memory.initial], nofun, fun _ => ⟨rfl, rfl, rfl, rfl, rfl⟩,
    by simp [Memory.initial]⟩
  filled := ⟨fun _ => rfl, rfl, rfl, fun _ => rfl, rfl, Nat.zero_le _⟩
  fault := rfl

/-! ## What a step leaves to the other threads -/

variable {t t' : T} {a : Choice} {p q : Pc}

theorem exec_pending (hm : s.mode ≠ .pending) : (exec capacity tid t a s p).1.mode ≠ .pending := by
  cases p with
  | swap | clock | lock =>
    simp only [exec]
    split
    all_goals first | exact hm | simp
  | storeMode | storeStopped => simp [exec]
  | _ => exact hm

theorem exec_started (hm : s.mode = .recording ∨ s.mode = .stopped) :
    (exec capacity tid t a s p).1.mode = .recording ∨
      (exec capacity tid t a s p).1.mode = .stopped := by
  cases p with
  | swap =>
    have hne : s.mode ≠ .pending := by rcases hm with hm | hm <;> simp [hm]
    simpa [exec, hne] using hm
  | clock | lock =>
    simp only [exec]
    split
    all_goals exact hm
  | storeMode => exact .inl rfl
  | storeStopped => exact .inr rfl
  | _ => exact hm

/-- Before the observer has started, only the activating thread moves the
activation on. -/
theorem exec_phase (hactivating : p.activating = false) (hseen : p.seen = false) (hq : Phase s q) :
    Phase (exec capacity tid t a s p).1 q := by
  cases p with
  | exchange | storeContended | publish | storeState | storeMode => cases hactivating
  | countStopped | clock | countClock | lock | countContended | loadUsed | writeSlot
  | storeRecords | countFull | storeStopped | unlock => cases hseen
  | swap =>
    simp only [exec]
    split
    all_goals cases q <;> exact hq
  | idle | load | reload | countEarly => cases q <;> exact hq

/-- Only the holder of the lock works on the slots. -/
theorem exec_section (hcritical : p.critical = false) (hq : Section capacity tid t' s q) :
    Section capacity tid t' (exec capacity tid t a s p).1 q := by
  cases p with
  | loadUsed | writeSlot | storeRecords | countFull | storeStopped | unlock => cases hcritical
  | swap | clock | lock =>
    simp only [exec]
    split
    all_goals cases q <;> exact hq
  | _ => cases q <;> exact hq

/-! ## Assertions of the threads -/

variable [DecidableEq T]

/-- The assertion of a thread. -/
structure Local (capacity : Nat) (tid : T → Nat) (t : T) (s : Memory T) (p : Pc) : Prop where
  counted : s.starts.count t = (s.outcomes.map (·.1)).count t + p.uncounted
  owner : p.critical = true ↔ s.owner = some t
  activator : p.activating = true ↔ s.activator = some t
  seen : p.seen = true → s.mode = .recording ∨ s.mode = .stopped
  begun : p.begun = true → s.mode ≠ .pending
  phase : Phase s p
  holding : Section capacity tid t s p

/-! ## The step of a thread keeps the assertion of the memory -/

theorem exec_account (h : Global capacity s) (hp : Local capacity tid t s p) :
    Account (exec capacity tid t a s p).1 := by
  obtain ⟨haccount, hmerged, hunmerged⟩ := h.account
  cases p with
  | idle | load | publish | storeState | storeMode | reload | loadUsed | writeSlot
  | storeStopped | unlock => exact ⟨haccount, hmerged, hunmerged⟩
  | swap | clock | lock =>
    simp only [exec]
    split
    all_goals exact ⟨haccount, hmerged, hunmerged⟩
  | exchange =>
    -- The drops move from the counter to the activating thread.
    obtain ⟨hm, -, -, hheld⟩ := hp.phase
    have hlate := hunmerged hm
    refine ⟨?_, fun _ => hlate.symm, fun h => nomatch h⟩
    simp only [exec]
    omega
  | storeContended =>
    obtain ⟨-, -, hcontended, hheld⟩ := hp.phase
    refine ⟨?_, hmerged, hunmerged⟩
    simp only [exec]
    omega
  | countEarly =>
    refine ⟨?_, fun hm => ?_, fun hm => ?_⟩
    · simp only [exec, Memory.counted, length_append, length_singleton]
      omega
    · have hm : s.merged = true := hm
      simp [exec, hm, hmerged hm]
    · have hm : s.merged = false := hm
      simp [exec, hm, hunmerged hm]
  | countStopped | countClock | countContended | countFull =>
    refine ⟨?_, hmerged, hunmerged⟩
    simp only [exec, Memory.counted, Memory.touch, length_append, length_singleton]
    omega
  | storeRecords =>
    obtain ⟨-, hused, -, -⟩ := hp.holding
    refine ⟨?_, hmerged, hunmerged⟩
    simp only [exec, Memory.counted, Memory.touch, length_append, length_singleton]
    omega

theorem exec_modes (h : Global capacity s) (hp : Local capacity tid t s p) :
    Modes (exec capacity tid t a s p).1 := by
  obtain ⟨hbusy, hactivating, hdormant, -, hstarted⟩ := h.modes
  -- While a thread activates, the mode stays.
  have hself : p.activating = true → s.mode = .activating := fun hs =>
    hactivating.2 (by simp [hp.activator.1 hs])
  have hseen : p.seen = true → s.mode ≠ .activating ∧ s.mode ≠ .pending := fun hs => by
    rcases hp.seen hs with hm | hm <;> simp [hm]
  cases p with
  | idle | load | reload | storeState | countStopped | countClock | loadUsed | writeSlot
  | storeRecords | countFull => exact { h.modes with }
  | clock =>
    simp only [exec]
    split
    all_goals exact { h.modes with }
  | swap =>
    simp only [exec]
    split
    · exact ⟨hbusy, by simp, by simp, by simp, by simp⟩
    · exact { h.modes with }
  | exchange | storeContended | publish =>
    have hm := hself rfl
    exact ⟨hbusy, hactivating, hdormant, by simp [exec, hm], by simp [exec, hm]⟩
  | storeMode => exact ⟨hbusy, by simp [exec], by simp [exec], by simp [exec], fun _ => hp.phase⟩
  | countEarly =>
    have hm := hp.begun rfl
    exact { h.modes with pending := fun hm' => absurd hm' hm }
  | countContended =>
    have hm := (hseen rfl).2
    exact { h.modes with pending := fun hm' => absurd hm' hm }
  | lock =>
    simp only [exec]
    split
    · exact { h.modes with }
    · exact { h.modes with busy := rfl }
  | storeStopped =>
    have hnone : s.activator.isSome ≠ true := fun hs => (hseen rfl).1 (hactivating.2 hs)
    exact ⟨hbusy, by simp_all [exec], by simp [exec], by simp [exec],
      fun _ => hstarted (hp.seen rfl)⟩
  | unlock => exact { h.modes with busy := rfl }

theorem exec_fault (h : Global capacity s) (hp : Local capacity tid t s p) :
    (exec capacity tid t a s p).1.fault = false := by
  have hfault := h.fault
  have hpublished : p.seen = true → s.published = true := fun hs =>
    (h.modes.started (hp.seen hs)).2.1
  cases p with
  | idle | load | exchange | storeContended | publish | storeMode | reload | countEarly
  | storeStopped | unlock => exact hfault
  | swap | clock | lock =>
    simp only [exec]
    split
    all_goals exact hfault
  | storeState =>
    obtain ⟨-, hpub, -⟩ := hp.phase
    simp [exec, Memory.touch, hfault, hpub]
  | countStopped | countClock | countContended | loadUsed | writeSlot | storeRecords
  | countFull => simp [exec, Memory.touch, Memory.counted, hfault, hpublished rfl]

theorem exec_filled (h : Global capacity s) (hp : Local capacity tid t s p) :
    Filled capacity (exec capacity tid t a s p).1 := by
  have hs := h.filled
  cases p with
  | idle | load | exchange | storeContended | publish | storeState | storeMode | reload
  | loadUsed | storeStopped => exact { hs with }
  | swap | clock =>
    simp only [exec]
    split
    all_goals exact { hs with }
  | countEarly =>
    have hc := hs.counted t (o := .early) rfl
    exact { hc with }
  | countStopped | countFull =>
    have hc := hs.counted t (o := .full) rfl
    exact { hc with }
  | countClock =>
    have hc := hs.counted t (o := .clockError) rfl
    exact { hc with }
  | countContended =>
    have hc := hs.counted t (o := .contended) rfl
    exact { hc with }
  | lock =>
    simp only [exec]
    split
    · exact { hs with }
    · exact { hs with free := by simp }
  | writeSlot c now used =>
    obtain ⟨hw, rfl, -⟩ := hp.holding
    have hc := hs.write hw (hp.owner.1 rfl) (recordOf tid t c now)
    exact { hc with }
  | storeRecords c now used =>
    obtain ⟨hw, rfl, hlt, hlast⟩ := hp.holding
    have hc := hs.count hw hlt hlast t
    exact { hc with }
  | unlock => exact { hs with free := fun _ => hp.holding }

theorem exec_global (h : Global capacity s) (hp : Local capacity tid t s p) :
    Global capacity (exec capacity tid t a s p).1 :=
  ⟨exec_account h hp, exec_modes h hp, exec_filled h hp, exec_fault h hp⟩

/-! ## The step of a thread keeps its own assertion -/

/-- A thread that moves without touching the memory. -/
theorem Local.move (hp : Local capacity tid t s p) {q : Pc} (huncounted : q.uncounted = p.uncounted)
    (hcritical : q.critical = p.critical) (hactivating : q.activating = p.activating)
    (hseen : q.seen = true → s.mode = .recording ∨ s.mode = .stopped)
    (hbegun : q.begun = true → s.mode ≠ .pending) (hphase : Phase s q)
    (hholding : Section capacity tid t s q) : Local capacity tid t s q :=
  ⟨huncounted ▸ hp.counted, hcritical ▸ hp.owner, hactivating ▸ hp.activator, hseen, hbegun,
    hphase, hholding⟩

/-- The mode decides, once the activation has begun. -/
theorem Local.dispatch {c : Observed} (h : Modes s) (hm : s.mode ≠ .pending)
    (hp : Local capacity tid t s (.reload c)) : Local capacity tid t s (dispatch c s.mode) := by
  cases hmode : s.mode with
  | dormant => exact absurd hmode h.notDormant
  | pending => exact absurd hmode hm
  | activating => exact hp.move rfl rfl rfl nofun (fun _ => hm) trivial trivial
  | recording => exact hp.move rfl rfl rfl (fun _ => .inl hmode) nofun trivial trivial
  | stopped => exact hp.move rfl rfl rfl (fun _ => .inr hmode) nofun trivial trivial

theorem exec_local (h : Global capacity s) (hp : Local capacity tid t s p) :
    Local capacity tid t (exec capacity tid t a s p).1 (exec capacity tid t a s p).2 := by
  cases p with
  | idle =>
    refine ⟨?_, hp.owner, hp.activator, nofun, nofun, trivial, trivial⟩
    simpa [exec, Pc.uncounted] using hp.counted
  | load c =>
    simp only [exec]
    split
    · exact hp.move rfl rfl rfl nofun nofun trivial trivial
    · next hm =>
      have hreload : Local capacity tid t s (.reload c) :=
        hp.move rfl rfl rfl nofun (fun _ => hm) trivial trivial
      exact hreload.dispatch h.modes hm
  | swap c =>
    simp only [exec]
    split
    · next hm =>
      obtain ⟨hmerged, hpublished, hcontended, -, hheld⟩ := h.modes.pending hm
      exact ⟨hp.counted, hp.owner, by simp [Pc.activating], nofun, nofun,
        ⟨hmerged, hpublished, hcontended, hheld⟩, trivial⟩
    · next hm => exact hp.move rfl rfl rfl nofun (fun _ => hm) trivial trivial
  | exchange c =>
    obtain ⟨-, hpublished, hcontended, -⟩ := hp.phase
    exact ⟨hp.counted, hp.owner, hp.activator, nofun, nofun,
      ⟨rfl, hpublished, hcontended, rfl⟩, trivial⟩
  | storeContended c drops =>
    obtain ⟨hmerged, hpublished, -, -⟩ := hp.phase
    exact ⟨hp.counted, hp.owner, hp.activator, nofun, nofun, ⟨hmerged, hpublished, rfl⟩, trivial⟩
  | publish c =>
    obtain ⟨hmerged, -, hheld⟩ := hp.phase
    exact ⟨hp.counted, hp.owner, hp.activator, nofun, nofun, ⟨hmerged, rfl, hheld⟩, trivial⟩
  | storeState c => exact ⟨hp.counted, hp.owner, hp.activator, nofun, nofun, hp.phase, trivial⟩
  | storeMode c =>
    exact ⟨hp.counted, hp.owner, by simp [exec, Pc.activating], nofun, by simp [exec], trivial,
      trivial⟩
  | reload c => exact hp.dispatch h.modes (hp.begun rfl)
  | clock c =>
    simp only [exec]
    split
    all_goals exact hp.move rfl rfl rfl hp.seen nofun trivial trivial
  | countEarly c | countStopped c | countClock c | countContended c =>
    refine ⟨?_, hp.owner, hp.activator, nofun, nofun, trivial, trivial⟩
    simpa [exec, Memory.counted, Memory.touch, Pc.uncounted] using hp.counted
  | lock c now =>
    simp only [exec]
    split
    · exact hp.move rfl rfl rfl hp.seen nofun trivial trivial
    · next hbusy =>
      have hfree : s.owner = none := by simpa [h.modes.busy] using hbusy
      exact ⟨hp.counted, by simp [Pc.critical], hp.activator, hp.seen, nofun, trivial,
        h.filled.free hfree⟩
  | loadUsed c now =>
    simp only [exec]
    split
    · next hlt =>
      exact ⟨hp.counted, hp.owner, hp.activator, hp.seen, nofun, trivial, ⟨hp.holding, rfl, hlt⟩⟩
    · exact ⟨hp.counted, hp.owner, hp.activator, hp.seen, nofun, trivial, hp.holding⟩
  | writeSlot c now used =>
    obtain ⟨-, hused, hlt⟩ := hp.holding
    exact ⟨hp.counted, hp.owner, hp.activator, hp.seen, nofun, trivial,
      ⟨rfl, hused, hlt, by simp [exec]⟩⟩
  | storeRecords c now used =>
    refine ⟨?_, hp.owner, hp.activator, hp.seen, nofun, trivial, rfl⟩
    simpa [exec, Memory.counted, Memory.touch, Pc.uncounted] using hp.counted
  | countFull c =>
    refine ⟨?_, hp.owner, hp.activator, hp.seen, nofun, trivial, hp.holding⟩
    simpa [exec, Memory.counted, Memory.touch, Pc.uncounted] using hp.counted
  | storeStopped c =>
    exact ⟨hp.counted, hp.owner, hp.activator, fun _ => .inr rfl, nofun, trivial, hp.holding⟩
  | unlock c =>
    exact ⟨hp.counted, by simp [exec, Pc.critical], hp.activator, nofun, nofun, trivial, trivial⟩

/-! ## The step of a thread keeps the assertions of the others -/

theorem exec_starts (hne : t' ≠ t) :
    (exec capacity tid t a s p).1.starts.count t' = s.starts.count t' := by
  cases p with
  | idle => simp [exec, hne.symm]
  | swap | clock | lock =>
    simp only [exec]
    split
    all_goals rfl
  | _ => rfl

theorem exec_outcomes (hne : t' ≠ t) : ((exec capacity tid t a s p).1.outcomes.map (·.1)).count t' =
      (s.outcomes.map (·.1)).count t' := by
  cases p with
  | countEarly | countStopped | countClock | countContended | storeRecords | countFull =>
    simp [exec, Memory.counted, Memory.touch, hne.symm]
  | swap | clock | lock =>
    simp only [exec]
    split
    all_goals rfl
  | _ => rfl

/-- The lock passes between the others and nobody else. -/
theorem exec_owner (h : Global capacity s) (hp : Local capacity tid t s p) (hne : t' ≠ t) :
    (exec capacity tid t a s p).1.owner = some t' ↔ s.owner = some t' := by
  cases p with
  | lock =>
    simp only [exec]
    split
    · rfl
    · next hbusy =>
      have hfree : s.owner = none := by simpa [h.modes.busy] using hbusy
      simp [hfree, hne.symm]
  | unlock =>
    have ho := hp.owner.1 rfl
    simp [exec, ho, hne.symm]
  | swap | clock =>
    simp only [exec]
    split
    all_goals rfl
  | _ => rfl

theorem exec_activator (h : Global capacity s) (hp : Local capacity tid t s p) (hne : t' ≠ t) :
    (exec capacity tid t a s p).1.activator = some t' ↔ s.activator = some t' := by
  cases p with
  | swap =>
    simp only [exec]
    split
    · next hm =>
      have hsome : s.activator ≠ some t' := fun hs => by
        have hactivating := h.modes.activating.2 (by simp [hs])
        simp [hm] at hactivating
      simp [hsome, hne.symm]
    · rfl
  | storeMode =>
    have ho := hp.activator.1 rfl
    simp [exec, ho, hne.symm]
  | clock | lock =>
    simp only [exec]
    split
    all_goals rfl
  | _ => rfl

theorem exec_others (h : Global capacity s) (hp : Local capacity tid t s p) (hne : t' ≠ t)
    (hq : Local capacity tid t' s q) : Local capacity tid t' (exec capacity tid t a s p).1 q where
  counted := by rw [exec_starts hne, exec_outcomes hne, hq.counted]
  owner := hq.owner.trans (exec_owner h hp hne).symm
  activator := hq.activator.trans (exec_activator h hp hne).symm
  seen := fun hs => exec_started (hq.seen hs)
  begun := fun hs => exec_pending (hq.begun hs)
  phase := by
    by_cases hself : q.activating = true
    · have hactivator := hq.activator.1 hself
      have hmode := h.modes.activating.2 (by simp [hactivator])
      refine exec_phase (Bool.eq_false_iff.2 fun hs => ?_) (Bool.eq_false_iff.2 fun hs => ?_)
        hq.phase
      · exact hne (Option.some.inj (hactivator.symm.trans (hp.activator.1 hs)))
      · rcases hp.seen hs with hm | hm <;> simp [hm] at hmode
    · cases q <;> first | exact trivial | exact absurd rfl hself
  holding := by
    by_cases hself : q.critical = true
    · refine exec_section (Bool.eq_false_iff.2 fun hs => ?_) hq.holding
      exact hne (Option.some.inj ((hq.owner.1 hself).symm.trans (hp.owner.1 hs)))
    · cases q <;> first | exact trivial | exact absurd rfl hself

/-! ## Runs -/

/-- Before the first call of any thread. -/
def start (T : Type) : SharedMemory.State T (Memory T) Pc where
  memory := .initial
  control := fun _ => .idle

theorem local_initial (t : T) : Local capacity tid t .initial .idle where
  counted := rfl
  owner := by simp [Pc.critical, Memory.initial]
  activator := by simp [Pc.activating, Memory.initial]
  seen := nofun
  begun := nofun
  phase := trivial
  holding := trivial

/-- The assertions hold in every state that any interleaving reaches. -/
theorem run_holds (actions : List (T × Choice)) :
    SharedMemory.Holds (Global capacity) (Local capacity tid)
      (SharedMemory.run (exec capacity tid) (start T) actions) := by
  refine SharedMemory.Holds.run ?_ ?_ ⟨global_initial, local_initial⟩ actions
  · intro t a s p h hp
    exact ⟨exec_global h hp, exec_local h hp⟩
  · intro t a s p h hp t' q hne hq
    exact exec_others h hp hne hq

/-- An early drop is counted before the activating thread has taken the early
drops. -/
def Timely (s : SharedMemory.State T (Memory T) Pc) (a : T × Choice) : Prop :=
  (s.control a.1).dropsEarly = true → s.memory.merged = false

instance (s : SharedMemory.State T (Memory T) Pc) (a : T × Choice) : Decidable (Timely s a) :=
  inferInstanceAs (Decidable (_ → _))

theorem step_late (s : SharedMemory.State T (Memory T) Pc) (a : T × Choice) :
    s.memory.late ≤ (SharedMemory.step (exec capacity tid) s a).memory.late ∧
      ((SharedMemory.step (exec capacity tid) s a).memory.late = s.memory.late ↔ Timely s a) := by
  simp only [SharedMemory.step, Timely]
  cases s.control a.1 with
  | countEarly => cases hm : s.memory.merged <;> simp [exec, hm, Pc.dropsEarly]
  | swap | clock | lock =>
    simp only [exec]
    split
    all_goals simp [Pc.dropsEarly]
  | _ => exact ⟨Nat.le_refl _, fun _ h => Bool.noConfusion h, fun _ => rfl⟩

/-- The losses of the observer are in the header, and its slots hold what it
recorded. -/
structure LosesNothing (capacity : Nat) (s : Memory T) : Prop where
  calls : s.starts.length = s.records + s.droppedFull + s.droppedContended + s.clockErrors
  bounded : s.records ≤ capacity
  once : (s.writes.map (·.1)).Nodup
  slots : (List.range s.records).map s.slots = (s.outcomes.filterMap (·.2.record?)).map some

/-- When no thread is in a call, the calls are those that were counted. -/
theorem length_starts_of_idle {s : SharedMemory.State T (Memory T) Pc}
    (h : SharedMemory.Holds (Global capacity) (Local capacity tid) s)
    (hidle : ∀ t, s.control t = .idle) : s.memory.starts.length = s.memory.outcomes.length := by
  have hperm : s.memory.starts.Perm (s.memory.outcomes.map (·.1)) := by
    refine perm_iff_count.2 fun t => ?_
    simpa [hidle t, Pc.uncounted] using (h.2 t).counted
  simpa using hperm.length_eq

/-- When no thread is in a call, what is left of the early drops came late. -/
theorem drops_of_idle {s : SharedMemory.State T (Memory T) Pc}
    (h : SharedMemory.Holds (Global capacity) (Local capacity tid) s)
    (hidle : ∀ t, s.control t = .idle) :
    s.memory.earlyDrops = s.memory.late ∧ s.memory.held = 0 := by
  obtain ⟨hG, hL⟩ := h
  cases hm : s.memory.mode with
  | dormant => exact absurd hm hG.modes.notDormant
  | pending =>
    obtain ⟨hmerged, -, -, hdrops, hheld⟩ := hG.modes.pending hm
    exact ⟨by rw [hdrops, hG.account.unmerged hmerged], hheld⟩
  | activating =>
    -- The thread that activates is in a call.
    obtain ⟨t, ht⟩ := Option.isSome_iff_exists.1 (hG.modes.activating.1 hm)
    have hp := (hL t).activator.2 ht
    simp [hidle t, Pc.activating] at hp
  | recording =>
    obtain ⟨hmerged, -, hheld⟩ := hG.modes.started (.inl hm)
    exact ⟨hG.account.merged hmerged, hheld⟩
  | stopped =>
    obtain ⟨hmerged, -, hheld⟩ := hG.modes.started (.inr hm)
    exact ⟨hG.account.merged hmerged, hheld⟩

/-- In every state that any interleaving reaches, one thread holds the lock and
one activates, the header is used only when it is mapped, and the slots that it
counts are the recorded calls in their order. -/
theorem run_excludes (capacity : Nat) (tid : T → Nat) (actions : List (T × Choice)) :
    let s := SharedMemory.run (exec capacity tid) (start T) actions
    (∀ t t', (s.control t).critical = true → (s.control t').critical = true → t = t') ∧
      (∀ t t', (s.control t).activating = true → (s.control t').activating = true → t = t') ∧
      s.memory.fault = false ∧ s.memory.records ≤ capacity ∧
      (List.range s.memory.records).map s.memory.slots =
        (s.memory.outcomes.filterMap (·.2.record?)).map some ∧
      ∀ t, s.memory.starts.count t =
        (s.memory.outcomes.map (·.1)).count t + (s.control t).uncounted := by
  intro s
  have h : SharedMemory.Holds (Global capacity) (Local capacity tid) s := run_holds actions
  refine ⟨fun t t' ht ht' => ?_, fun t t' ht ht' => ?_, h.1.fault, h.1.filled.bounded,
    h.1.filled.slots_eq, fun t => (h.2 t).counted⟩
  · have hown := (h.2 t).owner.1 ht
    exact Option.some.inj (hown.symm.trans ((h.2 t').owner.1 ht'))
  · have hown := (h.2 t).activator.1 ht
    exact Option.some.inj (hown.symm.trans ((h.2 t').activator.1 ht'))

/-- Once all calls have returned, the header accounts for every call exactly if
no thread counted an early drop after the early drops were taken. -/
theorem run_loses_nothing_iff (capacity : Nat) (tid : T → Nat) (actions : List (T × Choice))
    (hidle : ∀ t, (SharedMemory.run (exec capacity tid) (start T) actions).control t = .idle) :
    LosesNothing capacity (SharedMemory.run (exec capacity tid) (start T) actions).memory ↔
      SharedMemory.Every (exec capacity tid) Timely (start T) actions := by
  have h : SharedMemory.Holds (Global capacity) (Local capacity tid) _ := run_holds actions
  rw [SharedMemory.every_iff_counter (fun s a => (step_late s a).1)
    (fun s a => (step_late s a).2)]
  generalize SharedMemory.run (exec capacity tid) (start T) actions = s at h hidle
  have hlength := length_starts_of_idle h hidle
  obtain ⟨hdrops, hheld⟩ := drops_of_idle h hidle
  have haccount := h.1.account.account
  have hfilled := h.1.filled
  change _ ↔ s.memory.late = 0
  constructor
  · intro hl
    have hcalls := hl.calls
    omega
  · intro hlate
    exact ⟨by omega, hfilled.bounded, hfilled.indices ▸ nodup_range, hfilled.slots_eq⟩

/-- The call and the clock of the runs below. -/
def oneChoice : Choice where
  call := { id := 7, edge := .entry }
  clock := some 100

/-- A thread begins to activate, another reads that it does and counts its drop
after the first has taken some more steps. -/
def twoThreads (before after : Nat) : List (Bool × Choice) :=
  .replicate 3 (true, oneChoice) ++ .replicate 2 (false, oneChoice) ++
    .replicate before (true, oneChoice) ++ [(false, oneChoice)] ++
    .replicate after (true, oneChoice)

theorem run_loses_nothing_iff_timely : LosesNothing 1
      (SharedMemory.run (exec 1 Bool.toNat) (start Bool) (twoThreads 0 12)).memory :=
  (run_loses_nothing_iff 1 Bool.toNat (twoThreads 0 12) (by decide)).2 (by decide)

/-- The drop that is counted after the exchange is in no counter of the
header: of two calls, one is recorded and none is lost. -/
theorem run_loses_late_drop :
    let s := SharedMemory.run (exec 1 Bool.toNat) (start Bool) (twoThreads 12 0)
    (∀ t, s.control t = .idle) ∧ s.memory.starts.length = 2 ∧ s.memory.records = 1 ∧
      s.memory.droppedFull = 0 ∧ s.memory.droppedContended = 0 ∧ s.memory.clockErrors = 0 ∧
      ¬ LosesNothing 1 s.memory := by
  refine ⟨by decide, rfl, rfl, rfl, rfl, rfl, fun h => ?_⟩
  exact absurd h.calls (by decide)

end SilFormal.SourceScope.Observer
