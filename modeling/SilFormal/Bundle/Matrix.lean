import SilFormal.Bundle.Evidence

/-!
# The status of a matrix case

`sil bundle matrix` reads the summary of each case again and computes a status
of its own from it.  The two verdicts differ when a termination signal cut the
bundle short: the summary of the bundle fails, and nothing in its Runs does.
-/

namespace SilFormal.Bundle

open List

/-- The statuses of a case. -/
inductive Status
  | pass
  | behavioralFailure
  | manifestError
  | determinismViolation
  | timeout
  | skipped
deriving DecidableEq, Repr

variable {worst : Status × String}

/-- `_SEVERITY`. -/
def severity : List Status :=
  [.manifestError, .determinismViolation, .behavioralFailure, .pass]

/-- `EXIT_REFUSED`. -/
def exitRefused : Int := 2

/-- An exit code, as text. -/
def codeText (code : Option Int) : String :=
  code.elim "None" toString

/-- `_exit_status`. -/
def exitStatus (code : Option Int) : Status :=
  if code = some 0 then .pass
  else if code = none ∨ code = some exitRefused then .manifestError
  else .behavioralFailure

/-- The comparisons that failed, by name. -/
def failedComparisons (r : RunResult) : List String :=
  ((r.comparisons.filter fun p => p.2.verdict ≠ .pass).map (·.1)).insertionSort (· ≤ ·)

/-- The end of `_run_status`, after the exit code and the determinism check. -/
def comparisonStatus (r : RunResult) : Status × String :=
  if failedComparisons r ≠ [] then
    (.behavioralFailure, "comparison " ++ ", ".intercalate (failedComparisons r) ++ " failed")
  else (.pass, "")

/-- `_run_status`. -/
def runStatus (r : RunResult) : Status × String :=
  if exitStatus r.exitCode ≠ .pass then
    (exitStatus r.exitCode, s!"sil-run exited {codeText r.exitCode}")
  else
    match r.determinism with
    | none => comparisonStatus r
    | some d =>
      if d.verdict ≠ .pass then
        if d.secondExitCode ≠ some 0 then
          (exitStatus d.secondExitCode, s!"the repeated Run exited {codeText d.secondExitCode}")
        else (.determinismViolation, "the two Recordings differ")
      else comparisonStatus r

/-- One Run in the loop of `classify`. -/
def worse (worst : Status × String) (r : RunResult) : Status × String :=
  if severity.idxOf (runStatus r).1 < severity.idxOf worst.1 then
    ((runStatus r).1, s!"run {r.name}: {(runStatus r).2}")
  else worst

/-- `classify`. -/
def classify (code : Option Int) (summary : Option Summary) : Status × String :=
  match summary with
  | none => (.manifestError, s!"sil bundle exited {codeText code} without a summary")
  | some s =>
    if s.verdict = .refused then (.manifestError, s.refusal.getD "")
    else
      let worst := s.runs.foldl worse (.pass, "")
      if worst.1 = .pass ∧ s.bundleUnchanged = some false then
        (.behavioralFailure, "the bundle changed during its Runs")
      else worst

/-! ## What a status is made of -/

/-- Nothing that is recorded of a Run failed. -/
structure RunResult.Clean (r : RunResult) : Prop where
  exitCode : r.exitCode = some 0
  determinism : ∀ d ∈ r.determinism, d.verdict = .pass
  comparisons : ∀ p ∈ r.comparisons, p.2.verdict = .pass

variable {r : RunResult}

theorem exitStatus_eq_pass {code : Option Int} : exitStatus code = .pass ↔ code = some 0 := by
  rw [exitStatus]
  split
  · rename_i h
    simp [h]
  · rename_i h
    split
    · simp [h]
    · simp [h]

theorem failedComparisons_eq_nil :
    failedComparisons r = [] ↔ ∀ p ∈ r.comparisons, p.2.verdict = .pass := by
  have hperm := perm_insertionSort (· ≤ ·)
    ((r.comparisons.filter fun p => p.2.verdict ≠ .pass).map (·.1))
  rw [failedComparisons, ← List.isEmpty_iff, hperm.isEmpty_eq, List.isEmpty_iff, map_eq_nil_iff]
  simp

theorem comparisonStatus_eq_pass :
    (comparisonStatus r).1 = .pass ↔ ∀ p ∈ r.comparisons, p.2.verdict = .pass := by
  rw [comparisonStatus, ← failedComparisons_eq_nil]
  split
  · rename_i h
    simpa using h
  · rename_i h
    simpa using h

theorem runStatus_eq_pass : (runStatus r).1 = .pass ↔ r.Clean := by
  rw [runStatus]
  by_cases hexit : exitStatus r.exitCode = .pass
  · have hcode := exitStatus_eq_pass.mp hexit
    rw [if_neg (not_not_intro hexit)]
    cases hd : r.determinism with
    | none =>
      rw [comparisonStatus_eq_pass]
      exact ⟨fun h => ⟨hcode, by simp [hd], h⟩, fun h => h.comparisons⟩
    | some d =>
      by_cases hverdict : d.verdict = .pass
      · simp only [hverdict, ne_eq, not_true_eq_false, if_false]
        rw [comparisonStatus_eq_pass]
        exact ⟨fun h => ⟨hcode, by simp [hd, hverdict], h⟩, fun h => h.comparisons⟩
      · have hnot : ¬ r.Clean := fun h => hverdict (h.determinism d (by simp [hd]))
        simp only [hverdict, ne_eq, not_false_eq_true, if_true, hnot, iff_false]
        split
        · rename_i hsecond
          exact fun h => hsecond (exitStatus_eq_pass.mp h)
        · simp
  · rw [if_pos hexit]
    exact ⟨fun h => absurd h hexit, fun h => absurd (exitStatus_eq_pass.mpr h.exitCode) hexit⟩

theorem runStatus_mem_severity (r : RunResult) : (runStatus r).1 ∈ severity := by
  have hexit : ∀ code, exitStatus code ∈ severity := by
    intro code
    rw [exitStatus]
    split
    · simp [severity]
    · split
      · simp [severity]
      · simp [severity]
  have hcomparison : (comparisonStatus r).1 ∈ severity := by
    rw [comparisonStatus]
    split
    · simp [severity]
    · simp [severity]
  rw [runStatus]
  split
  · exact hexit _
  · split
    · exact hcomparison
    · split
      · split
        · exact hexit _
        · simp [severity]
      · exact hcomparison

/-- One Run keeps a pass exactly when it passes itself, and repairs nothing. -/
theorem worse_eq_pass (hworst : worst.1 ∈ severity) (r : RunResult) :
    (worse worst r).1 ∈ severity ∧ ((worse worst r).1 = .pass ↔ worst.1 = .pass ∧ r.Clean) := by
  have hmem := runStatus_mem_severity r
  rw [← runStatus_eq_pass, worse]
  -- Both statuses are among the four ranked ones.
  generalize (runStatus r).1 = status at hmem ⊢
  obtain ⟨old, reason⟩ := worst
  simp only [severity, mem_cons, not_mem_nil, or_false] at hmem hworst
  rcases hmem with rfl | rfl | rfl | rfl <;> rcases hworst with rfl | rfl | rfl | rfl <;>
    simp [severity]

theorem foldl_worse_eq_pass (hworst : worst.1 ∈ severity) (runs : List RunResult) :
    (runs.foldl worse worst).1 = .pass ↔ worst.1 = .pass ∧ ∀ r ∈ runs, r.Clean := by
  induction runs generalizing worst with
  | nil => simp
  | cons r runs ih =>
    obtain ⟨hmem, hpass⟩ := worse_eq_pass hworst r
    rw [foldl_cons, ih hmem, hpass, forall_mem_cons, and_assoc]

/-- A summary that is not refused is a pass when every recorded Run is clean
and the bundle did not change. -/
theorem classify_eq_pass {code : Option Int} {s : Summary} (hs : s.verdict ≠ .refused) :
    (classify code (some s)).1 = .pass ↔
      (∀ r ∈ s.runs, r.Clean) ∧ s.bundleUnchanged ≠ some false := by
  have hfold : (s.runs.foldl worse (.pass, "")).1 = .pass ↔ _ :=
    foldl_worse_eq_pass (by simp [severity]) s.runs
  simp only [true_and] at hfold
  simp only [classify, if_neg hs]
  rw [← hfold]
  split
  · rename_i h
    simp [h.2]
  · rename_i h
    exact ⟨fun hpass => ⟨hpass, fun hchanged => h ⟨hpass, hchanged⟩⟩, fun h' => h'.1⟩

/-! ## What a verdict is made of -/

theorem Verdict.of_eq_pass {passed : Bool} : Verdict.of passed = .pass ↔ passed = true := by
  cases passed with
  | false => simp [Verdict.of]
  | true => simp [Verdict.of]

theorem Verdict.of_ne_refused (passed : Bool) : Verdict.of passed ≠ .refused := by
  cases passed with
  | false => simp [Verdict.of]
  | true => simp [Verdict.of]

namespace World

variable (w : World) {i : Nat} {spec : RunSpec}

/-- Distinct names keep every comparison: the dictionary holds one entry for
each, in order.  By induction, with the entries that are already there. -/
theorem foldl_compare (i : Nat) (comparisons : List Comparison) (d : Dict Compared) (passed : Bool)
    (hnodup : (d.map (·.1) ++ comparisons.map (·.name)).Nodup) :
    comparisons.foldl (fun acc c =>
      (Dict.set acc.1 c.name (w.compare i c),
        acc.2 && decide ((w.compare i c).verdict = .pass))) (d, passed) =
      (d ++ comparisons.map (fun c => (c.name, w.compare i c)),
        passed && comparisons.all fun c => (w.compare i c).verdict = .pass) := by
  induction comparisons generalizing d passed with
  | nil => simp
  | cons c comparisons ih =>
    have hc : c.name ∉ d.map (·.1) := fun hmem =>
      (nodup_append.mp hnodup).2.2 _ hmem _ (by simp) rfl
    rw [foldl_cons]
    simp only [Dict.set_of_notMem hc]
    rw [ih]
    · simp [Bool.and_assoc]
    · simpa [append_assoc] using hnodup

theorem compareAll_eq (i : Nat) (spec : RunSpec) (passed : Bool) :
    w.compareAll i spec.comparisons passed =
      (spec.comparisons.map (fun c => (c.name, w.compare i c)),
        passed && spec.comparisons.all fun c => (w.compare i c).verdict = .pass) :=
  w.foldl_compare i spec.comparisons [] passed spec.nodup

/-- What the outside world answers makes nothing fail that is recorded of a
Run: its first Recording is made, and unless a signal cuts the Run short the
second one is equal and the comparisons pass. -/
structure RunsClean (i : Nat) (spec : RunSpec) : Prop where
  first : (runOnce (w.invoke i 1)).exitCode = some 0
  second : w.isSet (afterFirst i) = false → spec.determinism = true →
    (runOnce (w.invoke i 2)).exitCode = some 0 ∧
      (runOnce (w.invoke i 1)).recordingSha256 = (runOnce (w.invoke i 2)).recordingSha256
  comparisons : w.isSet (afterFirst i) = false →
    ∀ c ∈ spec.comparisons, (w.compare i c).verdict = .pass

theorem determinism_pass {first : Once} :
    (∀ d ∈ w.determinism i spec first, d.verdict = .pass) ↔ (spec.determinism = true →
      (runOnce (w.invoke i 2)).exitCode = some 0 ∧
        first.recordingSha256 = (runOnce (w.invoke i 2)).recordingSha256) := by
  rw [determinism]
  by_cases h : spec.determinism = true
  · simp [repeated, Verdict.of_eq_pass]
  · simp [h]

/-- A Run that is checked is recorded with its verdict. -/
theorem checkedResult_spec {digest : String} {first : Once} (hfirst : first.exitCode = some 0) :
    ((w.checkedResult i spec digest first).verdict = .pass ↔
      (w.checkedResult i spec digest first).Clean) ∧
    ((w.checkedResult i spec digest first).Clean ↔
      (∀ d ∈ w.determinism i spec first, d.verdict = .pass) ∧
        ∀ c ∈ spec.comparisons, (w.compare i c).verdict = .pass) := by
  have hverdict : (w.checkedResult i spec digest first).verdict = .pass ↔
      (∀ d ∈ w.determinism i spec first, d.verdict = .pass) ∧
        ∀ c ∈ spec.comparisons, (w.compare i c).verdict = .pass := by
    simp only [checkedResult, compareAll_eq, Verdict.of_eq_pass, Bool.and_eq_true,
      Option.all_eq_true, all_eq_true, decide_eq_true_eq, Option.mem_def]
  have hcomparisons : (w.checkedResult i spec digest first).comparisons =
      spec.comparisons.map fun c => (c.name, w.compare i c) := by
    rw [checkedResult, compareAll_eq]
  have hclean : (w.checkedResult i spec digest first).Clean ↔
      (∀ d ∈ w.determinism i spec first, d.verdict = .pass) ∧
        ∀ c ∈ spec.comparisons, (w.compare i c).verdict = .pass := by
    constructor
    · intro h
      refine ⟨h.determinism, fun c hc => ?_⟩
      exact h.comparisons (c.name, w.compare i c) (hcomparisons ▸ mem_map_of_mem hc)
    · rintro ⟨hdeterminism, hpass⟩
      refine ⟨hfirst, hdeterminism, ?_⟩
      rw [hcomparisons]
      intro p hp
      obtain ⟨c, hc, rfl⟩ := mem_map.mp hp
      exact hpass c hc
  exact ⟨hverdict.trans hclean.symm, hclean⟩

/-- What is recorded of a Run is clean when the outside world lets it be, and
unless a signal came during the Run its verdict says so. -/
theorem execute_spec {r : RunResult} (h : w.execute i spec = .ok r) :
    (r.Clean ↔ w.RunsClean i spec) ∧
      (w.isSet (afterFirst i) = false → (r.verdict = .pass ↔ r.Clean)) := by
  rw [execute] at h
  split at h
  · cases h
  · split at h
    · rename_i hcut
      cases h
      refine ⟨⟨fun hclean => ?_, fun hclean => ⟨hclean.first, by simp [cutResult], ?_⟩⟩, ?_⟩
      · have hset := hcut.resolve_left (not_not_intro hclean.exitCode)
        exact ⟨hclean.exitCode, by simp [hset], by simp [hset]⟩
      · simp [cutResult]
      · intro hset
        have hexit := hcut.resolve_right (by simp [hset])
        exact ⟨fun h => (by cases h), fun h => absurd h.exitCode hexit⟩
    · rename_i hgo
      rw [not_or, not_not, Bool.not_eq_true] at hgo
      cases h
      obtain ⟨hverdict, hclean⟩ := w.checkedResult_spec hgo.1
      refine ⟨?_, fun _ => hverdict⟩
      rw [hclean, determinism_pass]
      exact ⟨fun h => ⟨hgo.1, fun _ => h.1, fun _ => h.2⟩,
        fun h => ⟨h.second hgo.2, h.comparisons hgo.2⟩⟩

/-- The Runs that are executed are those before the signal.  By induction on
the Runs that are left, with the position in the loop. -/
theorem executeFrom_spec {specs : List RunSpec} {results : List RunResult}
    (h : w.executeFrom i specs = .ok results) :
    ((∀ r ∈ results, r.Clean) ↔ ∀ k spec, specs[k]? = some spec →
      w.isSet (beforeRun (i + k)) = false → w.RunsClean (i + k) spec) ∧
    (w.isSet (atVerdict (i + specs.length)) = false →
      ∀ r ∈ results, r.verdict = .pass ↔ r.Clean) := by
  induction specs generalizing i results with
  | nil =>
    cases h
    simp
  | cons spec specs ih =>
    rw [executeFrom] at h
    split at h
    · rename_i hset
      cases h
      refine ⟨⟨fun _ k spec' _ hk => ?_, by simp⟩, by simp⟩
      have hmono := w.isSet_mono (show beforeRun i ≤ beforeRun (i + k) by
        rw [beforeRun, beforeRun]; omega) hset
      rw [hk] at hmono
      cases hmono
    · rename_i hset
      obtain ⟨r, hr, h⟩ := Fallible.bind_eq_ok.mp h
      obtain ⟨rs, hrs, h⟩ := Fallible.bind_eq_ok.mp h
      cases h
      obtain ⟨hclean, hverdict⟩ := w.execute_spec hr
      obtain ⟨hcleans, hverdicts⟩ := ih hrs
      refine ⟨?_, fun hlast => ?_⟩
      · rw [forall_mem_cons, hclean, hcleans]
        constructor
        · rintro ⟨hfirst, hrest⟩ k spec' hspec hk
          cases k with
          | zero =>
            cases hspec
            exact hfirst
          | succ k =>
            rw [← Nat.add_assoc, Nat.add_right_comm] at hk ⊢
            exact hrest k spec' hspec hk
        · intro hall
          refine ⟨hall 0 spec rfl (by simpa using hset), fun k spec' hspec hk => ?_⟩
          rw [Nat.add_right_comm] at hk ⊢
          exact hall (k + 1) spec' hspec hk
      · have hle : afterFirst i ≤ atVerdict (i + (spec :: specs).length) := by
          rw [afterFirst, atVerdict, length_cons]
          omega
        have hfirst : w.isSet (afterFirst i) = false := by
          rw [Bool.eq_false_iff] at hlast ⊢
          exact fun htrue => hlast (w.isSet_mono hle htrue)
        refine forall_mem_cons.mpr ⟨hverdict hfirst, hverdicts ?_⟩
        rwa [length_cons, show i + (specs.length + 1) = i + 1 + specs.length by omega]
          at hlast

/-- A termination signal came before the verdict of a verified bundle that did
not change, and nothing failed in the Runs before it. -/
def Masked : Prop :=
  ∃ d lock contents, w.verify = .ok (d, lock) ∧ w.contents = .ok contents ∧
    contentProblems lock.contentsSha256 contents = [] ∧
    w.isSet (atVerdict d.runs.length) = true ∧
    ∀ i spec, d.runs[i]? = some spec → w.isSet (beforeRun i) = false → w.RunsClean i spec

theorem finish_spec {d : Declaration} {lock : Lock} {s : Summary} (h : w.finish d lock = .ok s) :
    s.verdict ≠ .refused ∧ ∃ contents, w.contents = .ok contents ∧
      s.bundleUnchanged = some (decide (contentProblems lock.contentsSha256 contents = [])) ∧
      ((∀ r ∈ s.runs, r.Clean) ↔ ∀ i spec, d.runs[i]? = some spec →
        w.isSet (beforeRun i) = false → w.RunsClean i spec) ∧
      (s.verdict = .pass ↔ contentProblems lock.contentsSha256 contents = [] ∧
        w.isSet (atVerdict d.runs.length) = false ∧ ∀ r ∈ s.runs, r.Clean) := by
  obtain ⟨results, hresults, h⟩ := Fallible.bind_eq_ok.mp h
  obtain ⟨hclean, hverdict⟩ := w.executeFrom_spec hresults
  simp only [Nat.zero_add] at hclean hverdict
  split at h
  · cases h
  · rename_i contents hcontents
    split at h
    · cases h
    · cases h
      refine ⟨Verdict.of_ne_refused _, contents, hcontents, rfl, hclean, ?_⟩
      simp only [Verdict.of_eq_pass, Bool.and_eq_true, Bool.not_eq_true', all_eq_true,
        decide_eq_true_eq, and_assoc]
      exact and_congr_right fun _ => and_congr_right fun hset => forall₂_congr (hverdict hset)

/-- The status of a case and the verdict of its bundle agree except when a
termination signal cut an unchanged bundle short and nothing failed before. -/
theorem classify_agrees_iff {s : Summary} (h : w.run.summary = some s) (code : Option Int) :
    (((classify code (some s)).1 = .pass ↔ s.verdict = .pass) ↔ ¬ w.Masked) ∧
    (s.verdict = .pass ↔ w.run.exitCode = 0) := by
  rw [run] at h ⊢
  split at h
  · cases h
  · split at h
    · rename_i message hverify
      cases h
      refine ⟨?_, by simp [refusedSummary, Ending.exitCode]⟩
      have hnot : ¬ w.Masked := by
        rintro ⟨d, lock, contents, hok, _⟩
        rw [hverify] at hok
        cases hok
      simp [hnot, classify, refusedSummary]
    · rename_i d lock hverify
      cases hfinish : w.finish d lock with
      | error failure =>
        rw [hfinish] at h
        cases h
      | ok summary =>
        rw [hfinish] at h
        cases h
        obtain ⟨hne, contents, hcontents, hunchanged, hclean, hverdict⟩ := w.finish_spec hfinish
        have hmasked : w.Masked ↔ contentProblems lock.contentsSha256 contents = [] ∧
            w.isSet (atVerdict d.runs.length) = true ∧ ∀ r ∈ s.runs, r.Clean := by
          rw [hclean]
          constructor
          · rintro ⟨d', lock', contents', hok, hcontents', hrest⟩
            rw [hverify] at hok
            rw [hcontents] at hcontents'
            cases hok
            cases hcontents'
            exact hrest
          · exact fun hrest => ⟨d, lock, contents, hverify, hcontents, hrest⟩
        refine ⟨?_, by simp [Ending.exitCode]⟩
        rw [classify_eq_pass hne, hverdict, hmasked, hunchanged]
        by_cases hsame : contentProblems lock.contentsSha256 contents = []
        · cases w.isSet (atVerdict d.runs.length) with
          | false => simp [hsame]
          | true => simp [hsame]
        · simp [hsame]

/-- A bundle of one Run that succeeds, with a signal from a point on. -/
def oneRun (signal : Option Nat) : World where
  evidence := .ok ()
  verify := .ok (
    { name := "bundle"
      runs := [{
        name := "run", manifest := "manifest.json", determinism := true, comparisons := []
        nodup := List.nodup_nil }]
      nonempty := by simp
      nodup := by simp },
    { contentsSha256 := [], buildInfo := "runner" })
  signal := signal
  manifestSha256 := fun _ => some "manifest"
  invoke := fun _ _ => .exited 0 (some "recording")
  compare := fun _ _ => .report { coverageProblems := 0, divergences := 0 }
  contents := .ok []
  lockSha256 := some "lock"

theorem classify_agrees_iff_oneRun : ∃ s, (oneRun none).run.summary = some s ∧
      ((classify (some 0) (some s)).1 = .pass ↔ s.verdict = .pass) := by
  refine ⟨_, rfl, ((oneRun none).classify_agrees_iff rfl (some 0)).1.mpr ?_⟩
  rintro ⟨d, lock, contents, _, _, _, hset, _⟩
  cases hset

/-- A signal before the first Run: no Run is executed, the bundle fails with
exit code 1, and the case passes. -/
theorem classify_ignores_interruption :
    ∃ s, (oneRun (some 0)).run.summary = some s ∧ s.verdict = .fail ∧ s.runs = [] ∧
      (oneRun (some 0)).run.exitCode = 1 ∧ classify (some 1) (some s) = (.pass, "") := by
  exact ⟨_, rfl, rfl, rfl, rfl, rfl⟩

end World

end SilFormal.Bundle
