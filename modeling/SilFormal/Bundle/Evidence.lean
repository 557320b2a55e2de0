import SilFormal.Library.Fallible

/-!
# The evidence of a regression bundle

`sil bundle run` verifies a sealed bundle, executes each declared Run and
writes a summary.  A termination signal sets a flag that is read at fixed
points: before each Run, after the first Recording of a Run, for the verdict,
and for the summary.  What the outside world answers is a parameter.
-/

namespace SilFormal.Bundle

/-- `PASS`, `FAIL` and `REFUSED`. -/
inductive Verdict
  | pass
  | fail
  | refused
deriving DecidableEq, Repr

/-- A verdict that depends on one condition. -/
def Verdict.of (passed : Bool) : Verdict :=
  if passed = true then .pass else .fail

/-- A dictionary, in insertion order. -/
abbrev Dict (α : Type) := List (String × α)

namespace Dict

variable {α : Type}

/-- `d[key] = value`. -/
def set (d : Dict α) (key : String) (value : α) : Dict α :=
  if key ∈ d.map (·.1) then d.map fun p => if p.1 = key then (key, value) else p
  else d ++ [(key, value)]

/-- `d.get(key)`. -/
def get (d : Dict α) (key : String) : Option α :=
  (d.find? fun p => p.1 = key).map (·.2)

theorem set_of_notMem {d : Dict α} {key : String} (h : key ∉ d.map (·.1)) (value : α) :
    d.set key value = d ++ [(key, value)] :=
  if_neg h

end Dict

/-! ## What a bundle declares -/

structure Comparison where
  name : String
  contract : String
  reference : String
deriving DecidableEq, Repr

/-- `RunSpec`, whose comparisons have distinct names. -/
structure RunSpec where
  name : String
  manifest : String
  determinism : Bool
  comparisons : List Comparison
  nodup : (comparisons.map (·.name)).Nodup

/-- `Declaration`, with at least one Run and distinct names. -/
structure Declaration where
  name : String
  runs : List RunSpec
  nonempty : runs ≠ []
  nodup : (runs.map (·.name)).Nodup

/-- What `seal` recorded. -/
structure Lock where
  contentsSha256 : Dict String
  buildInfo : String

/-! ## What the outside world answers -/

/-- How starting the runner ends. -/
inductive Invocation
  | cannotStart
  | exited (code : Int) (recording : Option String)
deriving DecidableEq, Repr

/-- The outcome of one runner invocation. -/
structure Once where
  exitCode : Option Int
  recordingSha256 : Option String
deriving DecidableEq, Repr

/-- `_run_once`. -/
def runOnce : Invocation → Once
  | .cannotStart => { exitCode := none, recordingSha256 := none }
  | .exited code recording => { exitCode := some code, recordingSha256 := recording }

/-- The numbers a comparison report decides its verdict by. -/
structure Report where
  coverageProblems : Nat
  divergences : Nat
deriving DecidableEq, Repr

def Report.verdict (r : Report) : Verdict :=
  if r.coverageProblems ≠ 0 ∨ r.divergences ≠ 0 then .fail else .pass

/-- What `_compare` returns: a report, or the error of a contract or of a
Recording. -/
inductive Compared
  | error (message : String)
  | report (r : Report)
deriving DecidableEq, Repr

def Compared.verdict : Compared → Verdict
  | .error _ => .fail
  | .report r => r.verdict

/-- Everything `run` asks the outside world for, the Runs by their position. -/
structure World where
  /-- Why the evidence directory is refused. -/
  evidence : Except String Unit
  verify : Except String (Declaration × Lock)
  /-- The point from which on the flag of a termination signal is set. -/
  signal : Option Nat
  manifestSha256 : Nat → Option String
  invoke : Nat → Nat → Invocation
  compare : Nat → Comparison → Compared
  /-- The contents after the Runs, or why they are refused. -/
  contents : Except String (Dict String)
  lockSha256 : Option String

/-! ## The points at which the flag is read -/

/-- Before a Run is started. -/
def beforeRun (i : Nat) : Nat := 2 * i

/-- After the first Recording of a Run. -/
def afterFirst (i : Nat) : Nat := 2 * i + 1

/-- When the verdict is computed. -/
def atVerdict (runs : Nat) : Nat := 2 * runs

/-- When the summary is filled in. -/
def atSummary (runs : Nat) : Nat := 2 * runs + 1

/-! ## The summary -/

structure Determinism where
  verdict : Verdict
  secondExitCode : Option Int
  recordingSha256 : Option String × Option String
deriving DecidableEq, Repr

structure RunResult where
  name : String
  manifest : String
  manifestSha256 : String
  exitCode : Option Int
  recordingSha256 : Option String
  verdict : Verdict
  determinism : Option Determinism
  comparisons : Dict Compared
deriving DecidableEq, Repr

/-- `summary.json`. -/
structure Summary where
  verdict : Verdict
  refusal : Option String
  name : Option String
  lockSha256 : Option String
  runtime : Option String
  bundleUnchanged : Option Bool
  interrupted : Option Bool
  runs : List RunResult
deriving DecidableEq, Repr

/-- What ends `run` without a summary. -/
inductive Failure
  | refusal (message : String)
  | osError
deriving DecidableEq, Repr

/-- How `run` ends. -/
inductive Ending
  | finished (summary : Summary)
  /-- The bundle is not the one that was sealed. -/
  | refused (summary : Summary)
  | failed (failure : Failure)
deriving DecidableEq, Repr

/-- The summary that was written. -/
def Ending.summary : Ending → Option Summary
  | .finished summary => some summary
  | .refused summary => some summary
  | .failed _ => none

/-- What `sil bundle run` exits with. -/
def Ending.exitCode : Ending → Int
  | .finished summary => if summary.verdict = .pass then 0 else 1
  | .refused _ => 2
  | .failed (.refusal _) => 2
  | .failed .osError => 1

/-! ## Differences of the contents -/

/-- `_content_problems`. -/
def contentProblems (sealed actual : Dict String) : List String :=
  (((sealed.map (·.1)).filter fun n => n ∉ actual.map (·.1)).insertionSort (· ≤ ·)).map
      (fun n => s!"missing artifact {n}") ++
    (((actual.map (·.1)).filter fun n => n ∉ sealed.map (·.1)).insertionSort (· ≤ ·)).map
      (fun n => s!"unsealed file {n}") ++
    (((sealed.map (·.1)).filter fun n => n ∈ actual.map (·.1) ∧
        sealed.get n ≠ actual.get n).insertionSort (· ≤ ·)).map
      fun n => s!"altered artifact {n}"

namespace World

variable (w : World)

/-- `_interrupted.is_set()`, at a point. -/
def isSet (point : Nat) : Bool :=
  w.signal.any (· ≤ point)

theorem isSet_mono {p q : Nat} (hpq : p ≤ q) (h : w.isSet p = true) : w.isSet q = true := by
  rw [isSet, Option.any_eq_true] at h ⊢
  obtain ⟨arrival, harrival, hle⟩ := h
  exact ⟨arrival, harrival, decide_eq_true ((of_decide_eq_true hle).trans hpq)⟩

/-! ## The Runs -/

/-- The comparisons of a Run, and whether all passed. -/
def compareAll (i : Nat) (comparisons : List Comparison) (passed : Bool) : Dict Compared × Bool :=
  comparisons.foldl (fun acc c =>
    (acc.1.set c.name (w.compare i c), acc.2 && decide ((w.compare i c).verdict = .pass)))
    ([], passed)

/-- The determinism check of a Run. -/
def repeated (i : Nat) (first : Once) : Determinism :=
  let second := runOnce (w.invoke i 2)
  { verdict := Verdict.of (decide (second.exitCode = some 0 ∧
      first.recordingSha256 = second.recordingSha256))
    secondExitCode := second.exitCode
    recordingSha256 := (first.recordingSha256, second.recordingSha256) }

/-- What `_execute` determines of a Run that has no first Recording, or that
is cut short after it. -/
def cutResult (spec : RunSpec) (digest : String) (first : Once) : RunResult where
  name := spec.name
  manifest := spec.manifest
  manifestSha256 := digest
  exitCode := first.exitCode
  recordingSha256 := first.recordingSha256
  verdict := .fail
  determinism := none
  comparisons := []

/-- The determinism check, for a Run that declares one. -/
def determinism (i : Nat) (spec : RunSpec) (first : Once) : Option Determinism :=
  if spec.determinism = true then some (w.repeated i first) else none

/-- What `_execute` determines of a Run that is checked. -/
def checkedResult (i : Nat) (spec : RunSpec) (digest : String) (first : Once) : RunResult :=
  let compared := w.compareAll i spec.comparisons
    ((w.determinism i spec first).all fun d => d.verdict = .pass)
  { name := spec.name
    manifest := spec.manifest
    manifestSha256 := digest
    exitCode := first.exitCode
    recordingSha256 := first.recordingSha256
    verdict := Verdict.of compared.2
    determinism := w.determinism i spec first
    comparisons := compared.1 }

/-- `_execute`. -/
def execute (i : Nat) (spec : RunSpec) : Except Failure RunResult :=
  match w.manifestSha256 i with
  | none => .error .osError
  | some digest =>
    if (runOnce (w.invoke i 1)).exitCode ≠ some 0 ∨ w.isSet (afterFirst i) = true then
      .ok (cutResult spec digest (runOnce (w.invoke i 1)))
    else .ok (w.checkedResult i spec digest (runOnce (w.invoke i 1)))

/-- The loop of `run` over the declared Runs, from a position on. -/
def executeFrom : Nat → List RunSpec → Except Failure (List RunResult)
  | _, [] => .ok []
  | i, spec :: rest =>
    if w.isSet (beforeRun i) = true then .ok []
    else do
      let result ← w.execute i spec
      let results ← executeFrom (i + 1) rest
      .ok (result :: results)

/-- What `run` does with a verified bundle. -/
def finish (d : Declaration) (lock : Lock) : Except Failure Summary := do
  let results ← w.executeFrom 0 d.runs
  match w.contents with
  | .error message => .error (.refusal message)
  | .ok contents =>
    let unchanged := decide (contentProblems lock.contentsSha256 contents = [])
    let passed := unchanged && !w.isSet (atVerdict d.runs.length) &&
      results.all fun r => r.verdict = .pass
    match w.lockSha256 with
    | none => .error .osError
    | some digest => .ok {
        verdict := Verdict.of passed
        refusal := none
        name := some d.name
        lockSha256 := some digest
        runtime := some lock.buildInfo
        bundleUnchanged := some unchanged
        interrupted := some (w.isSet (atSummary d.runs.length))
        runs := results }

/-- The summary of a bundle that is refused. -/
def refusedSummary (message : String) : Summary where
  verdict := .refused
  refusal := some message
  name := none
  lockSha256 := none
  runtime := none
  bundleUnchanged := none
  interrupted := none
  runs := []

/-- `run`. -/
def run : Ending :=
  match w.evidence with
  | .error message => .failed (.refusal message)
  | .ok () =>
    match w.verify with
    | .error message => .refused (refusedSummary message)
    | .ok (d, lock) =>
      match w.finish d lock with
      | .error failure => .failed failure
      | .ok summary => .finished summary

end World

end SilFormal.Bundle
