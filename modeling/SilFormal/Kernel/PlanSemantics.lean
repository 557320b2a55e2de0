import SilFormal.Kernel.PlanCompile

/-!
# What a plan does to a sequence of publishes

The plan keeps one counter per step.  Here the same decisions are described
without counters, by quantities of the whole sequence: which publishes reach a
step, how many of them lie in its window, the sum of the matching delays in
unbounded naturals, and the last override that covers a byte.
-/

namespace SilFormal.Kernel

open List

variable {step : InterceptorStep}

section Spec

variable (times : Nat → Nat)

/-- Publishes before `i` that reach a step and lie in its window. -/
def windowCountAt (step : InterceptorStep) (reached : Nat → Bool) (i : Nat) : Nat :=
  ((List.range i).filter fun j => reached j && step.inWindow (times j)).length

/-- The step suppresses publish `i`, if that publish reaches it. -/
def suppresses (step : InterceptorStep) (reached : Nat → Bool) (i : Nat) : Bool :=
  step.inWindow (times i) &&
    match step.kind with
    | .drop => true
    | .dropNth => decide (step.parameter ∣ windowCountAt times step reached (i + 1))
    | .delay => false
    | .override => false

/-- The publishes that get past a list of steps. -/
def reachAfter : List InterceptorStep → (Nat → Bool) → Nat → Bool
  | [], reached => reached
  | step :: rest, reached => reachAfter rest fun i => reached i && !suppresses times step reached i

/-- The publishes that reach step `k` of a plan: no step before `k`
suppresses them. -/
def reaches (steps : List InterceptorStep) (k : Nat) : Nat → Bool :=
  reachAfter times (steps.take k) fun _ => true

/-- The steps after the first `i` publishes. -/
def stepsAt (i : Nat) : List InterceptorStep → (Nat → Bool) → List InterceptorStep
  | [], _ => []
  | step :: rest, reached =>
    (if step.kind = .dropNth then
      { step with windowCount := windowCountAt times step reached i }
    else step) :: stepsAt i rest fun j => reached j && !suppresses times step reached j

end Spec

/-- The sum of the delays whose window holds `nowNs`. -/
def delaySum (steps : List InterceptorStep) (nowNs : Nat) : Nat :=
  ((steps.filter fun s => decide (s.kind = .delay) && s.inWindow nowNs).map
    InterceptorStep.parameter).sum

/-- Whether an override writes byte `b`. -/
def InterceptorStep.covers (step : InterceptorStep) (b : Nat) : Bool :=
  decide (step.overrideOffset ≤ b) && decide (b < step.overrideOffset + step.overrideBytes.length)

/-- The last matching override that covers byte `b`. -/
def lastOverride (steps : List InterceptorStep) (nowNs b : Nat) : Option InterceptorStep :=
  (steps.filter fun s => decide (s.kind = .override) && s.inWindow nowNs && s.covers b).getLast?

/-! ## Drop decisions -/

section Drop

variable {i : Nat}

variable (times : Nat → Nat) {reached : Nat → Bool}

theorem windowCountAt_succ (step : InterceptorStep) (reached : Nat → Bool) (i : Nat) :
    windowCountAt times step reached (i + 1) = windowCountAt times step reached i +
        if reached i && step.inWindow (times i) then 1 else 0 := by
  unfold windowCountAt
  rw [range_succ, filter_append]
  by_cases h : (reached i && step.inWindow (times i)) = true
  · simp [h]
  · simp [h]

theorem windowCountAt_le (step : InterceptorStep) (reached : Nat → Bool) (i : Nat) :
    windowCountAt times step reached i ≤ i := by
  refine (length_filter_le _ _).trans ?_
  rw [length_range]

/-- A publish that does not reach the list does not get past it. -/
theorem reachAfter_of_not_reached (steps : List InterceptorStep) (h : reached i = false) :
    reachAfter times steps reached i = false := by
  induction steps generalizing reached with
  | nil => exact h
  | cons step rest ih => exact ih (by simp [h])

/-- A publish that does not reach the list leaves its counters alone. -/
theorem stepsAt_succ_of_not_reached (steps : List InterceptorStep) (h : reached i = false) :
    stepsAt times (i + 1) steps reached = stepsAt times i steps reached := by
  induction steps generalizing reached with
  | nil => rfl
  | cons step rest ih =>
    unfold stepsAt
    rw [windowCountAt_succ, ih (by simp [h])]
    simp [h]

/-- The steps before the first publish are the compiled ones. -/
theorem stepsAt_zero {steps : List InterceptorStep} (hzero : ∀ s ∈ steps, s.windowCount = 0)
    (reached : Nat → Bool) : stepsAt times 0 steps reached = steps := by
  induction steps generalizing reached with
  | nil => rfl
  | cons step rest ih =>
    unfold stepsAt
    rw [ih (fun s hs => hzero s (mem_cons_of_mem _ hs))]
    have hstep : windowCountAt times step reached 0 = step.windowCount := by
      rw [hzero step (by simp)]
      rfl
    rw [hstep]
    split_ifs <;> rfl

/-- The drop pass of publish `i` decides as the counting description says,
and brings the counters to those of `i + 1` publishes. -/
theorem dropPass_stepsAt (steps : List InterceptorStep) (reached : Nat → Bool) (hi : i + 1 < 2 ^ 64)
    (hreached : reached i = true) :
    dropPass (times i) (stepsAt times i steps reached) = (!reachAfter times steps reached i,
        stepsAt times (i + 1) steps reached) := by
  induction steps generalizing reached with
  | nil => simp [dropPass, stepsAt, reachAfter, hreached]
  | cons step rest ih =>
    -- the two ways on: the publish passes this step, or stops at it
    have hpass : suppresses times step reached i = false → dropPass (times i) (stepsAt times i rest
          fun j => reached j && !suppresses times step reached j) =
        (!reachAfter times (step :: rest) reached i, stepsAt times (i + 1) rest
            fun j => reached j && !suppresses times step reached j) := by
      intro hs
      exact ih _ (by simp [hreached, hs])
    have hstop : suppresses times step reached i = true →
        reachAfter times (step :: rest) reached i = false ∧
        stepsAt times (i + 1) rest
            (fun j => reached j && !suppresses times step reached j) =
          stepsAt times i rest
            fun j => reached j && !suppresses times step reached j := by
      intro hs
      exact ⟨reachAfter_of_not_reached _ rest (by simp [hs]),
        stepsAt_succ_of_not_reached _ rest (by simp [hs])⟩
    by_cases hwin : step.inWindow (times i) = true
    · cases hkind : step.kind with
      | drop =>
        have hs : suppresses times step reached i = true := by
          simp [suppresses, hwin, hkind]
        obtain ⟨h1, h2⟩ := hstop hs
        rw [h1]
        simp [stepsAt, dropPass, hkind, hwin, h2]
      | dropNth =>
        have hcount := windowCountAt_succ times step reached i
        rw [hreached, hwin] at hcount
        simp only [Bool.and_self, if_true] at hcount
        have hle := windowCountAt_le times step reached i
        have hcounted : InterceptorStep.counted
            { step with windowCount := windowCountAt times step reached i } =
            { step with windowCount := windowCountAt times step reached (i + 1) } := by
          show { step with windowCount :=
            (windowCountAt times step reached i + 1) % 2 ^ 64 } = _
          rw [Nat.mod_eq_of_lt (by omega), hcount]
        have hwin' : InterceptorStep.inWindow
            { step with windowCount := windowCountAt times step reached i }
            (times i) = true := hwin
        unfold stepsAt dropPass
        rw [if_pos hkind, if_pos hkind, if_pos hwin', hcounted]
        simp only [hkind]
        by_cases hdvd : step.parameter ∣ windowCountAt times step reached (i + 1)
        · have hs : suppresses times step reached i = true := by
            simp [suppresses, hwin, hkind, hdvd]
          obtain ⟨h1, h2⟩ := hstop hs
          rw [if_pos (Nat.mod_eq_zero_of_dvd hdvd), h1, h2]
          rfl
        · have hs : suppresses times step reached i = false := by
            simp [suppresses, hkind, hdvd]
          rw [if_neg (fun hz => hdvd (Nat.dvd_of_mod_eq_zero hz)), hpass hs]
      | delay =>
        have hs : suppresses times step reached i = false := by
          simp [suppresses, hkind]
        unfold stepsAt dropPass
        simp [hkind, hpass hs]
      | override =>
        have hs : suppresses times step reached i = false := by
          simp [suppresses, hkind]
        unfold stepsAt dropPass
        simp [hkind, hpass hs]
    · have hs : suppresses times step reached i = false := by
        simp [suppresses, hwin]
      have hsame : windowCountAt times step reached (i + 1) =
          windowCountAt times step reached i := by
        rw [windowCountAt_succ]
        simp [hwin]
      unfold stepsAt
      rw [hsame]
      generalize hhead : (if step.kind = .dropNth then
        { step with windowCount := windowCountAt times step reached i }
        else step) = head
      have hwin' : ¬ head.inWindow (times i) = true := by
        rw [← hhead]
        split_ifs <;> exact hwin
      unfold dropPass
      rw [if_neg hwin', hpass hs]

end Drop

/-! ## Delays -/

/-- The delay pass is the unbounded sum, cut off at the end of the clock. -/
theorem delayPass_eq_min (steps : List InterceptorStep) {nowNs visibleNs : Nat}
    (h : visibleNs ≤ uint64Max) :
    delayPass nowNs steps visibleNs = min (visibleNs + delaySum steps nowNs) uint64Max := by
  induction steps generalizing visibleNs with
  | nil => simp [delayPass, delaySum, h]
  | cons step rest ih =>
    unfold delayPass
    by_cases hd : step.kind = .delay ∧ step.inWindow nowNs = true
    · have hsum : delaySum (step :: rest) nowNs = step.parameter + delaySum rest nowNs := by
        simp [delaySum, hd.1, hd.2]
      rw [if_pos hd]
      cases hv : virtualTimeAfter visibleNs step.parameter with
      | none =>
        unfold virtualTimeAfter at hv
        split_ifs at hv
        rw [Option.getD_none, ih le_rfl]
        omega
      | some t =>
        obtain ⟨rfl, hle⟩ := (virtualTimeAfter_eq_some_iff h).mp hv
        rw [Option.getD_some, ih hle]
        omega
    · have hsum : delaySum (step :: rest) nowNs = delaySum rest nowNs := by
        have hfalse : (decide (step.kind = .delay) && step.inWindow nowNs) = false := by
          simpa using hd
        simp [delaySum, hfalse]
      rw [if_neg hd, hsum]
      exact ih h

/-! ## Overrides -/

theorem InterceptorStep.fits_of_le {size : Nat}
    (h : step.overrideOffset + step.overrideBytes.length ≤ size) : step.fits size = true := by
  simp only [fits, Bool.not_eq_true', Bool.or_eq_false_iff, decide_eq_false_iff_not]
  omega

theorem InterceptorStep.overwrite_length {bytes : Bytes}
    (h : step.overrideOffset + step.overrideBytes.length ≤ bytes.length) :
    (step.overwrite bytes).length = bytes.length := by
  simp only [overwrite, length_append, length_take, length_drop]
  omega

/-- An override replaces the bytes it covers and no others. -/
theorem InterceptorStep.overwrite_getElem? {bytes : Bytes}
    (h : step.overrideOffset + step.overrideBytes.length ≤ bytes.length) (b : Nat) :
    (step.overwrite bytes)[b]? = if step.covers b then step.overrideBytes[b - step.overrideOffset]?
      else bytes[b]? := by
  have htake : (bytes.take step.overrideOffset).length = step.overrideOffset := by
    rw [length_take]
    omega
  unfold overwrite
  by_cases hlow : b < step.overrideOffset
  · have hcov : ¬ step.covers b = true := by
      simp only [covers, Bool.and_eq_true, decide_eq_true_eq]
      omega
    rw [if_neg hcov, append_assoc, getElem?_append_left (by omega), getElem?_take_of_lt hlow]
  · by_cases hhigh : b < step.overrideOffset + step.overrideBytes.length
    · have hcov : step.covers b = true := by
        simp only [covers, Bool.and_eq_true, decide_eq_true_eq]
        omega
      rw [if_pos hcov, getElem?_append_left (by rw [length_append]; omega),
        getElem?_append_right (by omega), htake]
    · have hcov : ¬ step.covers b = true := by
        simp only [covers, Bool.and_eq_true, decide_eq_true_eq]
        omega
      rw [if_neg hcov, getElem?_append_right (by rw [length_append]; omega),
        length_append, htake, getElem?_drop]
      congr 1
      omega

/-- The override pass of overrides that fit never throws, keeps the size, and
the last override covering a byte decides it. -/
theorem overridePass_spec (steps : List InterceptorStep) (nowNs : Nat) (bytes : Bytes)
    (hfits : ∀ s ∈ steps, s.overrideOffset + s.overrideBytes.length ≤ bytes.length) :
    ∃ bytes', overridePass nowNs steps bytes = some bytes' ∧ bytes'.length = bytes.length ∧
      ∀ b, bytes'[b]? =
        match lastOverride steps nowNs b with
        | none => bytes[b]?
        | some s => s.overrideBytes[b - s.overrideOffset]? := by
  induction steps generalizing bytes with
  | nil => exact ⟨bytes, rfl, rfl, fun _ => rfl⟩
  | cons step rest ih =>
    have hstep := hfits step (by simp)
    have hrest := fun s hs => hfits s (mem_cons_of_mem step hs)
    unfold overridePass
    by_cases ho : step.kind = .override ∧ step.inWindow nowNs = true
    · have hlen := InterceptorStep.overwrite_length hstep
      rw [if_pos ho, if_pos (InterceptorStep.fits_of_le hstep)]
      obtain ⟨bytes', hpass, hlen', hget⟩ :=
        ih (step.overwrite bytes) (by simpa only [hlen] using hrest)
      refine ⟨bytes', hpass, hlen'.trans hlen, ?_⟩
      intro b
      rw [hget b, InterceptorStep.overwrite_getElem? hstep]
      unfold lastOverride
      rw [filter_cons]
      by_cases hcov : step.covers b = true
      · simp only [ho.1, ho.2, hcov, decide_true, Bool.and_self, if_true]
        rw [getLast?_cons]
        cases (rest.filter fun s => decide (s.kind = .override) &&
          s.inWindow nowNs && s.covers b).getLast? <;> rfl
      · simp only [ho.2, hcov, Bool.and_false, Bool.false_eq_true, if_false]
    · rw [if_neg ho]
      obtain ⟨bytes', hpass, hlen', hget⟩ := ih bytes hrest
      refine ⟨bytes', hpass, hlen', ?_⟩
      intro b
      rw [hget b]
      have hfalse : (decide (step.kind = .override) && step.inWindow nowNs &&
          step.covers b) = false := by
        have : (decide (step.kind = .override) && step.inWindow nowNs) = false := by
          simpa using ho
        rw [this, Bool.false_and]
      unfold lastOverride
      rw [filter_cons, if_neg (by rw [hfalse]; exact Bool.false_ne_true)]

/-! ## Counters do not matter to delays and overrides -/

section Counters

variable (times : Nat → Nat)

theorem delayPass_stepsAt (nowNs i : Nat) (steps : List InterceptorStep) (reached : Nat → Bool)
    (visibleNs : Nat) :
    delayPass nowNs (stepsAt times i steps reached) visibleNs =
      delayPass nowNs steps visibleNs := by
  induction steps generalizing reached visibleNs with
  | nil => rfl
  | cons step rest ih =>
    unfold stepsAt delayPass
    split_ifs with h1 h2 h3 h3 h2
    · exact ih _ _
    · exact absurd h2 h3
    · exact absurd h3 h2
    · exact ih _ _
    · exact ih _ _
    · exact ih _ _

theorem overridePass_stepsAt (nowNs i : Nat) (steps : List InterceptorStep) (reached : Nat → Bool)
    (bytes : Bytes) :
    overridePass nowNs (stepsAt times i steps reached) bytes = overridePass nowNs steps bytes := by
  induction steps generalizing reached bytes with
  | nil => rfl
  | cons step rest ih =>
    unfold stepsAt overridePass
    by_cases hn : step.kind = .dropNth
    · have hno : ¬ step.kind = .override := by simp [hn]
      rw [if_pos hn, if_neg fun h => hno h.1, if_neg fun h => hno h.1]
      exact ih _ _
    · simp only [hn, if_false, ih]

end Counters

/-! ## A sequence of publishes -/

namespace InterceptorPlan

variable {i byteSize : Nat} {plan : InterceptorPlan} {data : Bytes} {reached : Nat → Bool}
  {steps : List InterceptorStep}

/-- The plan after a sequence of publishes, and its answers. -/
def applyAll (plan : InterceptorPlan) : List (Nat × Bytes) → InterceptorPlan × List PlanAnswer
  | [] => (plan, [])
  | (nowNs, data) :: rest =>
    ((applyAll (plan.apply nowNs data).1 rest).1,
      (plan.apply nowNs data).2 :: (applyAll (plan.apply nowNs data).1 rest).2)

theorem applyAll_append (plan : InterceptorPlan) (publishes : List (Nat × Bytes)) (nowNs : Nat)
    (data : Bytes) :
    plan.applyAll (publishes ++ [(nowNs, data)]) =
      (((plan.applyAll publishes).1.apply nowNs data).1, (plan.applyAll publishes).2 ++
          [((plan.applyAll publishes).1.apply nowNs data).2]) := by
  induction publishes generalizing plan with
  | nil => rfl
  | cons first rest ih =>
    simp only [cons_append, applyAll, ih]

/-- A plan as compilation leaves it, for payloads of `byteSize` bytes. -/
structure Compiled (plan : InterceptorPlan) (byteSize : Nat) : Prop where
  duration_le : plan.durationNs ≤ uint64Max
  steps : ∀ step ∈ plan.steps, step.Compiled byteSize

/-- Publish `i` is suppressed: dropped by the first step that drops it, or
moved beyond the end of the Run. -/
def Suppressed (plan : InterceptorPlan) (times : Nat → Nat) (i : Nat) : Prop :=
  (∃ k step, plan.steps[k]? = some step ∧ step.inWindow (times i) = true ∧ (step.kind = .drop ∨
        step.kind = .dropNth ∧ step.parameter ∣
            windowCountAt times step (reaches times plan.steps k) (i + 1))) ∨
    plan.durationNs ≤ times i + delaySum plan.steps (times i)

theorem suppresses_iff {times : Nat → Nat} {step : InterceptorStep} :
    suppresses times step reached i = true ↔ step.inWindow (times i) = true ∧ (step.kind = .drop ∨
          step.kind = .dropNth ∧ step.parameter ∣ windowCountAt times step reached (i + 1)) := by
  unfold suppresses
  cases step.kind <;> simp

/-- A publish gets past the steps when none of them suppresses it. -/
theorem reachAfter_eq_false_iff {times : Nat → Nat} (hreached : reached i = true) :
    reachAfter times steps reached i = false ↔ ∃ k step, steps[k]? = some step ∧
        suppresses times step (reachAfter times (steps.take k) reached) i = true := by
  induction steps generalizing reached with
  | nil => simp [reachAfter, hreached]
  | cons step rest ih =>
    cases hs : suppresses times step reached i with
    | true =>
      constructor
      · intro _
        exact ⟨0, step, rfl, hs⟩
      · intro _
        exact reachAfter_of_not_reached _ rest (by simp [hs])
    | false =>
      have hnext : (reached i && !suppresses times step reached i) = true := by
        simp [hreached, hs]
      unfold reachAfter
      rw [ih hnext]
      constructor
      · rintro ⟨k, step', hget, hsup⟩
        exact ⟨k + 1, step', hget, hsup⟩
      · rintro ⟨k, step', hget, hsup⟩
        cases k with
        | zero =>
          simp only [getElem?_cons_zero, Option.some.injEq] at hget
          subst hget
          have hsup' : suppresses times step reached i = true := hsup
          rw [hs] at hsup'
          cases hsup'
        | succ k => exact ⟨k, step', hget, hsup⟩

theorem suppressed_iff {times : Nat → Nat} :
    plan.Suppressed times i ↔ reachAfter times plan.steps (fun _ => true) i = false ∨
        plan.durationNs ≤ times i + delaySum plan.steps (times i) := by
  unfold Suppressed reaches
  rw [reachAfter_eq_false_iff rfl]
  simp only [suppresses_iff]

/-- One publish in terms of the sequence before it. -/
theorem apply_stepsAt (hplan : plan.Compiled byteSize) (times : Nat → Nat) (hi : i + 1 < 2 ^ 64)
    (htime : times i ≤ uint64Max) (hdata : data.length = byteSize) :
    ((plan.withSteps (stepsAt times i plan.steps fun _ => true)).apply
        (times i) data).1 =
      plan.withSteps (stepsAt times (i + 1) plan.steps fun _ => true) ∧
    (plan.Suppressed times i →
      ∃ visibleNs, ((plan.withSteps (stepsAt times i plan.steps fun _ => true)).apply
        (times i) data).2 = .verdict ⟨true, visibleNs⟩ data) ∧
    (¬ plan.Suppressed times i →
      ∃ bytes, ((plan.withSteps (stepsAt times i plan.steps fun _ => true)).apply
        (times i) data).2 = .verdict ⟨false, times i + delaySum plan.steps (times i)⟩ bytes ∧
        bytes.length = data.length ∧
        ∀ b, bytes[b]? =
          match lastOverride plan.steps (times i) b with
          | none => data[b]?
          | some s => s.overrideBytes[b - s.overrideOffset]?) := by
  have hdrop := dropPass_stepsAt times plan.steps (fun _ => true) hi rfl
  have hdelay := delayPass_stepsAt times (times i) i plan.steps
    (fun _ => true) (times i)
  rw [delayPass_eq_min plan.steps htime] at hdelay
  obtain ⟨bytes, hpass, hlen, hget⟩ := overridePass_spec plan.steps (times i) data
    fun s hs => hdata ▸ (hplan.steps s hs).fits
  have hover := overridePass_stepsAt times (times i) i plan.steps
    (fun _ => true) data
  rw [hpass] at hover
  have hmax := hplan.duration_le
  have happly : (plan.withSteps (stepsAt times i plan.steps fun _ => true)).apply
      (times i) data =
      (plan.withSteps (stepsAt times (i + 1) plan.steps fun _ => true),
        if reachAfter times plan.steps (fun _ => true) i = false then
          .verdict ⟨true, times i⟩ data
        else if plan.durationNs ≤ times i + delaySum plan.steps (times i) then
          .verdict ⟨true, min (times i + delaySum plan.steps (times i)) uint64Max⟩ data
        else
          .verdict ⟨false, times i + delaySum plan.steps (times i)⟩ bytes) := by
    unfold apply
    simp only [withSteps, hdrop, hdelay, hover]
    cases hr : reachAfter times plan.steps (fun _ => true) i with
    | false => rfl
    | true =>
      -- the cut-off sum reaches the duration exactly when the sum does
      by_cases hge : plan.durationNs ≤ times i + delaySum plan.steps (times i)
      · have hmin : min (times i + delaySum plan.steps (times i)) uint64Max ≥
            plan.durationNs := by omega
        simp [hge, hmin]
      · have hmin : min (times i + delaySum plan.steps (times i)) uint64Max =
            times i + delaySum plan.steps (times i) := by omega
        simp [hge, hmin]
  rw [happly, suppressed_iff]
  refine ⟨rfl, ?_, ?_⟩
  · intro hsup
    by_cases hr : reachAfter times plan.steps (fun _ => true) i = false
    · exact ⟨_, if_pos hr⟩
    · refine ⟨_, (if_neg hr).trans (if_pos ?_)⟩
      exact hsup.resolve_left hr
  · intro hsup
    rw [not_or] at hsup
    exact ⟨bytes, (if_neg hsup.1).trans (if_neg hsup.2), hlen, hget⟩

/-- The instants of a sequence of publishes. -/
def timesOf (publishes : List (Nat × Bytes)) (i : Nat) : Nat :=
  (publishes[i]?.map Prod.fst).getD 0

/-- The plan after the first `i` publishes of a sequence. -/
theorem applyAll_take (hplan : plan.Compiled byteSize) (publishes : List (Nat × Bytes))
    (hfew : publishes.length < 2 ^ 64)
    (hwell : ∀ p ∈ publishes, p.1 ≤ uint64Max ∧ p.2.length = byteSize) (hi : i ≤ publishes.length) :
    (plan.applyAll (publishes.take i)).1 = plan.withSteps
        (stepsAt (timesOf publishes) i plan.steps fun _ => true) := by
  induction i with
  | zero =>
    rw [stepsAt_zero _ fun s hs => (hplan.steps s hs).count_zero]
    rfl
  | succ i ih =>
    have hlt : i < publishes.length := by omega
    have htime : timesOf publishes i = publishes[i].1 := by
      simp [timesOf, hlt]
    obtain ⟨hle, hsize⟩ := hwell publishes[i] (getElem_mem hlt)
    rw [take_succ_eq_append_getElem hlt, applyAll_append, ih (by omega), ← htime]
    exact (apply_stepsAt hplan _ (by omega) (by omega) hsize).1

theorem applyAll_getElem? (plan : InterceptorPlan) {publishes : List (Nat × Bytes)} {nowNs : Nat}
    (h : publishes[i]? = some (nowNs, data)) :
    (plan.applyAll publishes).2[i]? =
      some ((plan.applyAll (publishes.take i)).1.apply nowNs data).2 := by
  induction publishes generalizing plan i with
  | nil => simp at h
  | cons first rest ih =>
    obtain ⟨now', data'⟩ := first
    cases i with
    | zero =>
      obtain ⟨rfl, rfl⟩ := h
      rfl
    | succ i => exact ih (plan.apply now' data').1 (by simpa using h)

/-! ## No override is ever out of range -/

theorem dropPass_forall {P : InterceptorStep → Prop} (hcounted : ∀ s, P s → P s.counted)
    {nowNs : Nat} (h : ∀ s ∈ steps, P s) : ∀ s ∈ (dropPass nowNs steps).2, P s := by
  induction steps with
  | nil => simp [dropPass]
  | cons step rest ih =>
    have hstep := h step (by simp)
    have hrest := fun s hs => h s (mem_cons_of_mem step hs)
    have hcons : ∀ {x : InterceptorStep} {l : List InterceptorStep},
        P x → (∀ s ∈ l, P s) → ∀ s ∈ x :: l, P s := by
      intro x l hx hl s hs
      rcases mem_cons.mp hs with rfl | hs
      · exact hx
      · exact hl s hs
    unfold dropPass
    by_cases hwin : step.inWindow nowNs = true
    · rw [if_pos hwin]
      cases step.kind with
      | drop => exact h
      | dropNth =>
        by_cases hzero : step.counted.windowCount % step.parameter = 0
        · simp only [if_pos hzero]
          exact hcons (hcounted step hstep) hrest
        · simp only [if_neg hzero]
          exact hcons (hcounted step hstep) (ih hrest)
      | delay => exact hcons hstep (ih hrest)
      | override => exact hcons hstep (ih hrest)
    · rw [if_neg hwin]
      exact hcons hstep (ih hrest)

/-- Every override fits a payload of `byteSize` bytes. -/
def Fits (plan : InterceptorPlan) (byteSize : Nat) : Prop :=
  ∀ s ∈ plan.steps, s.overrideOffset + s.overrideBytes.length ≤ byteSize

theorem Fits.apply (h : plan.Fits byteSize) (nowNs : Nat) (hdata : data.length = byteSize) :
    (plan.apply nowNs data).1.Fits byteSize ∧ (plan.apply nowNs data).2 ≠ .outOfRange := by
  have hsteps : ∀ s ∈ (dropPass nowNs plan.steps).2,
      s.overrideOffset + s.overrideBytes.length ≤ byteSize :=
    dropPass_forall (fun _ hs => hs) h
  obtain ⟨bytes, hpass, _, _⟩ := overridePass_spec plan.steps nowNs data (hdata ▸ h)
  unfold InterceptorPlan.apply
  simp only [hpass]
  split_ifs
  · exact ⟨hsteps, by simp⟩
  · exact ⟨hsteps, by simp⟩
  · exact ⟨hsteps, by simp⟩

end InterceptorPlan

end SilFormal.Kernel
