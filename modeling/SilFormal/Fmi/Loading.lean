import SilFormal.Fmi.Legality

/-!
# Loading an FMU

Start values, Configuration Mode and initialization are one list of calls, made
until one of them is not answered OK.  Which answer that is decides whether
closing the instance is legal: an instance that is not initialized may only be
freed, and only an Error or a Fatal that it reads keeps the importer from
terminating it.
-/

namespace SilFormal.Fmi

open List

/-- A call between loading an FMU and driving it. -/
structure Setup (N : Type) where
  call : Call
  fail : Status → Problem
  answer : N → Status × N

variable {N V : Type}

/-- The calls, answered OK. -/
def answeredOk (l : List (Setup N)) : List (Call × Status) :=
  l.map fun x => (x.call, .ok)

/-- An instance after calls that were answered OK. -/
def CoSimulation.made (s : CoSimulation N) (m : N) (l : List (Setup N)) : CoSimulation N :=
  { s with native := m, calls := s.calls ++ answeredOk l }

theorem CoSimulation.made_made (s : CoSimulation N) (m m' : N) (l l' : List (Setup N)) :
    (s.made m l).made m' l' = s.made m' (l ++ l') := by
  simp [made, answeredOk]

theorem CoSimulation.Heard.unloaded (m : N) : (CoSimulation.unloaded m).Heard := by
  simp [Heard, CoSimulation.unloaded]

namespace Native

variable (n : Native N V)

/-- A call that is named by its status. -/
def mode (c : Call) (answer : N → Status × N) : Setup N where
  call := c
  fail := .status c
  answer := answer

/-- The write of a start value. -/
def write (state : String) (v : StartValue V) : Setup N where
  call := .startValue v.structural v.variableName
  fail := .startValue v.variableName state
  answer := n.writeStart v

/-- The calls that configure an FMU with structural parameters. -/
def configures (structural : List (StartValue V)) : List (Setup N) :=
  if structural = [] then []
  else mode .enterConfigurationMode n.enterConfigurationMode ::
    (structural.map (n.write "in Configuration Mode, before initialization") ++
      [mode .exitConfigurationMode n.exitConfigurationMode])

/-- The calls before an FMU leaves initialization. -/
def prepares (starts : List (StartValue V)) : List (Setup N) :=
  n.configures (starts.filter (·.structural)) ++ (starts.filter fun v => !v.structural).map
      (n.write "in the instantiated state, before initialization") ++
    [mode .enterInitializationMode n.enterInitializationMode]

/-- The calls between loading an FMU and driving it. -/
def setups (starts : List (StartValue V)) : List (Setup N) :=
  n.prepares starts ++ [mode .exitInitializationMode n.exitInitializationMode]

/-- One of these calls. -/
def perform (x : Setup N) : EStateM Problem (CoSimulation N) Unit :=
  n.attempt x.call x.fail (statusOnly x.answer)

theorem forM_write (state : String) (l : List (StartValue V)) :
    forM (l.map (n.write state)) n.perform = n.writeStartValues l state := by
  induction l with
  | nil => rfl
  | cons v l ih =>
    rw [map_cons, forM_cons, ih]
    rfl

theorem forM_mode (c : Call) (answer : N → Status × N) :
    forM [mode c answer] n.perform = n.call c (statusOnly answer) := by
  rw [forM_cons]
  exact bind_pure_unit

theorem applyStartValues_eq (starts : List (StartValue V)) :
    n.applyStartValues starts = (do
      forM (n.configures (starts.filter (·.structural))) n.perform
      forM ((starts.filter fun v => !v.structural).map
        (n.write "in the instantiated state, before initialization")) n.perform) := by
  rw [applyStartValues, configures, forM_write]
  split
  · rfl
  · rw [forM_cons, forM_append, forM_write, forM_mode]
    simp only [bind_assoc]
    rfl

/-- An FMU is loaded by these calls. -/
theorem load_eq (eventMode : Bool) (starts : List (StartValue V)) :
    n.load eventMode starts = (do n.create eventMode; forM (n.setups starts) n.perform) := by
  simp only [load, applyStartValues_eq, initializeFmu, setups, prepares, forM_append, forM_mode,
    bind_assoc]

/-! ## The answers of an FMU to these calls -/

/-- What ends the calls: a signal before a call or during one, or a status other
than OK. -/
inductive Refusal
  | signal
  | cut (call : Call) (answer : Status)
  | status (answer : Status)
deriving DecidableEq, Repr

/-- The first of the calls that an FMU does not answer OK, if any. -/
def refusal : List (Setup N) → N → Option Refusal
  | [], _ => none
  | x :: rest, m =>
    if n.signalled m = true then some .signal
    else if n.interrupted (x.answer m).2 = true then some (.cut x.call (x.answer m).1)
    else if (x.answer m).1 = .ok then refusal rest (x.answer m).2
    else some (.status (x.answer m).1)

variable {l : List (Setup N)} {s : CoSimulation N}

/-- What a refusal of a call makes of an instance. -/
def Refusal.leave (c : Call) (m : N) (s : CoSimulation N) : Refusal → CoSimulation N
  | .signal => s
  | .cut _ answer => s.cut c answer m
  | .status answer => s.answered c answer m

/-- A refusal of a call. -/
def Refusal.Of (c : Call) : Refusal → Prop
  | .signal => True
  | .cut call _ => call = c
  | .status answer => answer ≠ .ok

theorem perform_ok {x : Setup N} (hsignal : ¬ n.signalled s.native = true)
    (hcut : ¬ n.interrupted (x.answer s.native).2 = true) (hok : (x.answer s.native).1 = .ok) :
    n.perform x s = .ok () (s.made (x.answer s.native).2 [x]) := by
  simp [perform, attempt, invoke, statusOnly, hsignal, hcut, hok, CoSimulation.made,
    CoSimulation.answered, answeredOk]

/-- If every call is answered OK, all of them are made. -/
theorem forM_perform_ok (h : n.refusal l s.native = none) :
    ∃ m, forM l n.perform s = .ok () (s.made m l) := by
  induction l generalizing s with
  | nil => exact ⟨s.native, by simp [CoSimulation.made, answeredOk]; rfl⟩
  | cons x l ih =>
    simp only [refusal] at h
    split_ifs at h with hsignal hcut hok
    obtain ⟨m, hm⟩ := ih (s := s.made (x.answer s.native).2 [x]) h
    refine ⟨m, ?_⟩
    rw [forM_cons, bind_of_ok (n.perform_ok hsignal hcut hok), hm, CoSimulation.made_made]
    rfl

/-- The calls end with the first that is not answered OK. -/
theorem forM_perform_error {r : Refusal} (h : n.refusal l s.native = some r) :
    ∃ p m m' done x rest, l = done ++ x :: rest ∧ r.Of x.call ∧
      forM l n.perform s = .error p (r.leave x.call m' (s.made m done)) := by
  induction l generalizing s with
  | nil => cases h
  | cons x l ih =>
    simp only [refusal] at h
    split_ifs at h with hsignal hcut hok
    · cases h
      refine ⟨.interrupted, s.native, s.native, [], x, l, rfl, trivial, ?_⟩
      rw [forM_cons, bind_of_error]
      simp [perform, attempt, hsignal, Refusal.leave, CoSimulation.made, answeredOk]
    · cases h
      refine ⟨.interrupted, s.native, (x.answer s.native).2, [], x, l, rfl, rfl, ?_⟩
      rw [forM_cons, bind_of_error]
      simp [perform, attempt, statusOnly, hsignal, hcut, Refusal.leave, CoSimulation.made,
        answeredOk]
    · obtain ⟨p, m, m', done, y, rest, hl, hy, hm⟩ := ih (s := s.made (x.answer s.native).2 [x]) h
      refine ⟨p, m, m', x :: done, y, rest, by rw [hl, cons_append], hy, ?_⟩
      rw [forM_cons, bind_of_ok (n.perform_ok hsignal hcut hok), hm, CoSimulation.made_made]
      rfl
    · cases h
      refine ⟨x.fail (x.answer s.native).1, s.native, (x.answer s.native).2, [], x, l, rfl, hok, ?_⟩
      rw [forM_cons, bind_of_error]
      simp [perform, attempt, invoke, statusOnly, hsignal, hcut, hok, Refusal.leave,
        CoSimulation.made, answeredOk]

/-! ## The calls are allowed -/

variable {eventMode : Bool} {starts : List (StartValue V)} {before : List (Call × Status)}

/-- A history that is all OK. -/
def AllOk (calls : List (Call × Status)) : Prop :=
  ∀ d ∈ calls, d.2 = .ok

/-- A call that is neither of events nor of steps nor ends the instance, after
calls that were all answered OK. -/
theorem allowed_setup {c : Call} (hok : AllOk before)
    (hstart : ∀ structural name, c = .startValue structural name →
      .enterInitializationMode ∉ before.map (·.1) ∧
        (structural = true → standing eventMode before = .configuration))
    (hstarted : c = .enterInitializationMode → startsWritten before = startsDeclared starts)
    (hevents : c.ofEvents = false) (hsteps : c.ofSteps = false) (hleave : c ≠ .enterStepMode)
    (hterminate : c ≠ .terminate) : Allowed eventMode starts before (c, .ok) where
  startValue := hstart
  started := hstarted
  events := fun h => by simp [hevents] at h
  steps := fun h => by simp [hsteps] at h
  leave := fun h => absurd h hleave
  terminate := fun h => absurd h hterminate
  error := by
    rintro ⟨d, hd, herror⟩
    simp [hok d hd] at herror
  fatal := fun d hd => by simp [hok d hd]

/-- Where the FMU stands while it is prepared, and what was written. -/
structure Prepared (eventMode : Bool) (starts : List (StartValue V)) (m : Stand)
    (written : List (Bool × String)) (calls : List (Call × Status)) : Prop where
  allowed : History.Always (Allowed eventMode starts) calls
  allOk : AllOk calls
  stands : standing eventMode calls = m
  written : startsWritten calls = written
  ahead : .enterInitializationMode ∉ calls.map (·.1)

variable {m : Stand} {written : List (Bool × String)} {calls : List (Call × Status)}

theorem AllOk.snoc (h : AllOk calls) (c : Call) : AllOk (calls ++ [(c, .ok)]) := by
  intro d hd
  rcases mem_append.1 hd with hd | hd
  · exact h d hd
  · rw [mem_singleton.1 hd]

theorem Prepared.mode (h : Prepared eventMode starts m written calls) {c : Call}
    (hc : c = .enterConfigurationMode ∨ c = .exitConfigurationMode) :
    Prepared eventMode starts (m.after eventMode c) written (calls ++ [(c, .ok)]) where
  allowed := by
    refine History.always_snoc_iff.2 ⟨h.allowed, ?_⟩
    rcases hc with rfl | rfl
    all_goals exact allowed_setup h.allOk nofun nofun rfl rfl nofun nofun
  allOk := h.allOk.snoc c
  stands := by simp [standing_snoc, h.stands]
  written := by
    rcases hc with rfl | rfl
    all_goals simp [startsWritten, ← h.written]
  ahead := by
    rcases hc with rfl | rfl
    all_goals simpa using h.ahead

/-- Start values that may be written where the FMU stands. -/
theorem Prepared.write (values : List (StartValue V)) (state : String)
    (h : Prepared eventMode starts m written calls)
    (hm : ∀ v ∈ values, v.structural = true → m = .configuration) :
    Prepared eventMode starts m (written ++ values.map fun v => (v.structural, v.variableName))
      (calls ++ answeredOk (values.map (n.write state))) := by
  induction values generalizing written calls with
  | nil => simpa [answeredOk] using h
  | cons v values ih =>
    have hv : Prepared eventMode starts m (written ++ [(v.structural, v.variableName)])
        (calls ++ [(.startValue v.structural v.variableName, .ok)]) := by
      refine ⟨History.always_snoc_iff.2 ⟨h.allowed, ?_⟩, h.allOk.snoc _, ?_, ?_, ?_⟩
      · refine allowed_setup h.allOk ?_ nofun rfl rfl nofun nofun
        intro structural name heq
        cases heq
        exact ⟨h.ahead, fun hs => h.stands.trans (hm v mem_cons_self hs)⟩
      · simp [standing_snoc, h.stands, Stand.after]
      · simp [startsWritten, ← h.written]
      · simpa using h.ahead
    have hrest := ih hv fun w hw => hm w (mem_cons_of_mem _ hw)
    simpa [answeredOk, Native.write] using hrest

theorem prepared_create (eventMode : Bool) (starts : List (StartValue V)) :
    Prepared eventMode starts .instantiated [] [(.instantiate, .ok)] where
  allowed := by
    rw [← nil_append [_], History.always_snoc_iff]
    exact ⟨History.always_nil, allowed_setup nofun nofun nofun rfl rfl nofun nofun⟩
  allOk := by simp [AllOk]
  stands := rfl
  written := rfl
  ahead := by simp

theorem Prepared.configures (h : Prepared eventMode starts .instantiated [] calls)
    (structural : List (StartValue V)) :
    Prepared eventMode starts .instantiated
      (structural.map fun v => (v.structural, v.variableName))
      (calls ++ answeredOk (n.configures structural)) := by
  rw [Native.configures]
  split
  · next hnil => simpa [hnil, answeredOk] using h
  · have henter := h.mode (.inl rfl)
    have hwrite := Prepared.write n structural "in Configuration Mode, before initialization"
      henter fun _ _ _ => rfl
    simpa [answeredOk, Native.mode, Stand.after] using hwrite.mode (.inr rfl)

/-- The start values are written before initialization. -/
theorem prepared_starts (eventMode : Bool) (starts : List (StartValue V)) :
    Prepared eventMode starts .instantiated (startsDeclared starts)
      ((.instantiate, .ok) :: answeredOk (n.configures (starts.filter (·.structural)) ++
        (starts.filter fun v => !v.structural).map
          (n.write "in the instantiated state, before initialization"))) := by
  have hconfigured := Prepared.configures n (prepared_create eventMode starts)
    (starts.filter (·.structural))
  have hplain : ∀ v ∈ starts.filter (fun v => !v.structural), v.structural = true →
      Stand.instantiated = .configuration := by
    intro v hv hs
    simp [hs] at hv
  have hwritten := Prepared.write n _ "in the instantiated state, before initialization"
    hconfigured hplain
  simpa [answeredOk, startsDeclared] using hwritten

/-- The calls between loading an FMU and driving it are allowed if it answers
them OK. -/
theorem allowed_setups (eventMode : Bool) (starts : List (StartValue V)) :
    History.Always (Allowed eventMode starts)
        ((.instantiate, .ok) :: answeredOk (n.setups starts)) ∧
      AllOk ((.instantiate, .ok) :: answeredOk (n.setups starts)) ∧
      standing eventMode ((.instantiate, .ok) :: answeredOk (n.setups starts)) =
        if eventMode = true then .event else .step := by
  have h := n.prepared_starts eventMode starts
  generalize hcalls : (Call.instantiate, Status.ok) :: answeredOk (n.configures
    (starts.filter (·.structural)) ++ (starts.filter fun v => !v.structural).map
      (n.write "in the instantiated state, before initialization")) = calls at h
  have hsetups : (Call.instantiate, Status.ok) :: answeredOk (n.setups starts) =
      calls ++ [(.enterInitializationMode, .ok)] ++ [(.exitInitializationMode, .ok)] := by
    simp [← hcalls, setups, prepares, answeredOk, mode]
  have hok := h.allOk.snoc .enterInitializationMode
  rw [hsetups]
  refine ⟨?_, hok.snoc _, by rw [standing_snoc]; rfl⟩
  refine History.always_snoc_iff.2 ⟨History.always_snoc_iff.2 ⟨h.allowed, ?_⟩, ?_⟩
  · exact allowed_setup h.allOk nofun (fun _ => h.written) rfl rfl nofun nofun
  · exact allowed_setup hok nofun nofun rfl rfl nofun nofun

/-! ## What becomes of an FMU that is loaded -/

/-- An FMU that is loaded, and answers all of these calls OK. -/
def Loads (eventMode : Bool) (starts : List (StartValue V)) (m : N) : Prop :=
  n.signalled m = false ∧ (n.instantiate eventMode m).1 = true ∧
    n.interrupted (n.instantiate eventMode m).2 = false ∧
    n.refusal (n.setups starts) (n.instantiate eventMode m).2 = none

/-- A refusal that closing is legal after: an Error or a Fatal that was read, or a
signal during the call that left initialization. -/
def Refusal.Orderly : Refusal → Prop
  | .signal => False
  | .cut call answer => call = .exitInitializationMode ∧ answer = .ok
  | .status answer => answer = .error ∨ answer = .fatal

/-- An FMU that returns no instance, or returns one without a signal and refuses
one of these calls in an orderly way, if any. -/
def Orderly (eventMode : Bool) (starts : List (StartValue V)) (m : N) : Prop :=
  n.signalled m = false → (n.instantiate eventMode m).1 = true →
    n.interrupted (n.instantiate eventMode m).2 = false ∧
      ∀ r, n.refusal (n.setups starts) (n.instantiate eventMode m).2 = some r → r.Orderly

theorem Loads.orderly {m : N} (h : n.Loads eventMode starts m) : n.Orderly eventMode starts m :=
  fun _ _ => ⟨h.2.2.1, fun r hr => by simp [h.2.2.2] at hr⟩

theorem mem_configures {x : Setup N} {structural : List (StartValue V)}
    (h : x ∈ n.configures structural) :
    x.call ≠ .freeInstance ∧ x.call ≠ .exitInitializationMode := by
  rw [configures] at h
  split at h
  · cases h
  · simp only [mem_cons, mem_append, mem_map, not_mem_nil, or_false] at h
    rcases h with rfl | ⟨v, -, rfl⟩ | rfl
    all_goals simp [mode, write]

theorem mem_prepares {x : Setup N} (h : x ∈ n.prepares starts) :
    x.call ≠ .freeInstance ∧ x.call ≠ .exitInitializationMode := by
  simp only [prepares, mem_append, mem_map, mem_singleton] at h
  rcases h with (h | ⟨v, -, rfl⟩) | rfl
  · exact n.mem_configures h
  · simp [write]
  · simp [mode]

theorem mem_setups {x : Setup N} (h : x ∈ n.setups starts) : x.call ≠ .freeInstance := by
  rcases mem_append.1 h with h | h
  · exact (n.mem_prepares h).1
  · simp [mem_singleton.1 h, mode]

/-- Before the last of the calls, the FMU has not left initialization. -/
theorem mem_of_setups_eq {done rest : List (Setup N)} {x y : Setup N}
    (h : n.setups starts = done ++ x :: rest) (hy : y ∈ done) :
    y.call ≠ .exitInitializationMode := by
  have hinit : done <+: n.prepares starts := by
    have hle : done.length ≤ (n.prepares starts).length := by
      have := congrArg length h
      simp only [setups, length_append, length_cons, length_nil] at this
      omega
    exact prefix_of_prefix_length_le ⟨x :: rest, h.symm⟩ (prefix_append _ _) hle
  exact (n.mem_prepares (hinit.subset hy)).2

theorem count_free {done : List (Setup N)} (h : ∀ x ∈ done, x ∈ n.setups starts) :
    (((.instantiate, .ok) :: answeredOk done).map (·.1)).count .freeInstance = 0 := by
  rw [count_eq_zero]
  intro hmem
  simp only [answeredOk, map_cons, map_map, mem_cons, mem_map] at hmem
  rcases hmem with hmem | ⟨x, hx, hcall⟩
  · cases hmem
  · exact n.mem_setups (h x hx) hcall

/-- An instance that was just created. -/
def created (m : N) : CoSimulation N where
  native := m
  created := true
  live := true
  failed := false
  unread := none
  calls := [(.instantiate, .ok)]

theorem create_eq {m : N} (hsignal : n.signalled m = false)
    (hcreated : (n.instantiate eventMode m).1 = true)
    (hcut : n.interrupted (n.instantiate eventMode m).2 = false) :
    n.create eventMode (.unloaded m) = .ok () (created (n.instantiate eventMode m).2) := by
  simp [create, CoSimulation.unloaded, created, hsignal, hcreated, hcut]

theorem load_of_loads {m : N} (h : n.Loads eventMode starts m) :
    ∃ s, n.load eventMode starts (.unloaded m) = .ok () s ∧
      Driven eventMode starts (if eventMode = true then .event else .step) s := by
  obtain ⟨hsignal, hcreated, hcut, hrefusal⟩ := h
  obtain ⟨hallowed, hok, hstands⟩ := n.allowed_setups eventMode starts
  rw [load_eq, bind_of_ok (n.create_eq hsignal hcreated hcut)]
  obtain ⟨m', hm'⟩ := n.forM_perform_ok (s := created (n.instantiate eventMode m).2) hrefusal
  exact ⟨_, hm', {
    allowed := hallowed
    created := rfl
    live := rfl
    sound := rfl
    read := rfl
    clean := fun d hd => by simp [hok d hd]
    initialized := by simp [CoSimulation.made, answeredOk, setups, mode]
    unfreed := n.count_free fun _ hx => hx
    stands := hstands }⟩

section Refused

variable {done rest : List (Setup N)} {x : Setup N} {answer : Status}
  (hl : n.setups starts = done ++ x :: rest)

include hl

theorem exit_not_mem : (Call.exitInitializationMode, Status.ok) ∉
    (Call.instantiate, Status.ok) :: answeredOk done := by
  simp only [answeredOk, mem_cons, mem_map, Prod.mk.injEq, not_or, not_exists]
  exact ⟨by simp, fun y hy => n.mem_of_setups_eq hl hy.1 hy.2.1⟩

/-- Closing is legal if the last answer left nothing to terminate, or left
initialization. -/
theorem legal_of_last (hcreated : s.created = true)
    (hcalls : s.calls = (.instantiate, .ok) :: answeredOk done ++ [(x.call, answer)])
    (hlive : s.live = true ↔ answer ≠ .fatal)
    (hsound : s.live = true → s.failed = false →
      answer ≠ .error ∧ (.exitInitializationMode, .ok) ∈ s.calls) :
    Legal eventMode starts (n.finished s).calls := by
  obtain ⟨hallowed, hok, -⟩ := n.allowed_setups eventMode starts
  have hsplit : (Call.instantiate, Status.ok) :: answeredOk (n.setups starts) =
      ((.instantiate, .ok) :: answeredOk done) ++ (x.call, .ok) :: answeredOk rest := by
    simp [hl, answeredOk]
  rw [hsplit] at hallowed hok
  rw [finished, if_pos hcreated]
  refine (closable_of_snoc ?_ ?_ ?_ hcalls hcreated hlive hsound).legal n
  · exact History.always_snoc_iff.2
      ⟨(History.always_append_iff.1 hallowed).1, (hallowed _ _ _ rfl).congr⟩
  · intro d hd
    simp [hok d (mem_append_left _ hd)]
  · have hfree : x.call ≠ .freeInstance := n.mem_setups (hl ▸ mem_append_right _ mem_cons_self)
    rw [map_append, count_append, n.count_free fun y hy => hl ▸ mem_append_left _ hy]
    simp [hfree]

omit hl in
/-- Closing terminates an instance that is not initialized. -/
theorem not_legal_of_premature (hcreated : s.created = true) (hlive : s.live = true)
    (hfailed : s.failed = false) (hinit : (.exitInitializationMode, .ok) ∉ s.calls) :
    ¬ Legal eventMode starts (n.finished s).calls := by
  rw [finished, if_pos hcreated]
  exact not_legal_of_live n hlive hfailed (.inl hinit)

/-- Closing is legal after a refusal exactly if it was orderly. -/
theorem legal_leave {r : Refusal} {m₀ m m' : N} (hr : r.Of x.call) :
    let s := r.leave x.call m' ((created m₀).made m done)
    Legal eventMode starts (n.finished s).calls ↔ r.Orderly ∧ s.Heard := by
  have hinit := n.exit_not_mem hl
  cases r with
  | signal => exact iff_of_false (n.not_legal_of_premature rfl rfl rfl hinit) And.left
  | cut call answer =>
    obtain rfl := hr
    by_cases hlast : x.call = .exitInitializationMode ∧ answer = .ok
    · refine iff_of_true (n.legal_of_last hl rfl rfl ?_ fun _ _ => ?_) ⟨hlast, ?_⟩
      · simp [Refusal.leave, CoSimulation.cut, CoSimulation.made, created, hlast.2]
      · simp [Refusal.leave, CoSimulation.cut, hlast.1, hlast.2]
      · simp [Refusal.leave, CoSimulation.cut, CoSimulation.Heard, hlast.2]
    · refine iff_of_false (n.not_legal_of_premature rfl rfl rfl fun hmem => ?_) (hlast ·.1)
      rcases mem_append.1 hmem with hmem | hmem
      · exact hinit hmem
      · obtain ⟨hcall, hok⟩ := Prod.mk.inj (mem_singleton.1 hmem)
        exact hlast ⟨hcall.symm, hok.symm⟩
  | status answer =>
    by_cases hend : answer = .error ∨ answer = .fatal
    · refine iff_of_true (n.legal_of_last hl rfl rfl ?_ fun hlive hfailed => ?_) ⟨hend, ?_⟩
      · simp [Refusal.leave, CoSimulation.answered, CoSimulation.made, created]
      · rcases hend with rfl | rfl
        · simp [Refusal.leave, CoSimulation.answered] at hfailed
        · simp [Refusal.leave, CoSimulation.answered] at hlive
      · simp [Refusal.leave, CoSimulation.answered, CoSimulation.Heard, CoSimulation.made, created]
    · obtain ⟨herror, hfatal⟩ := not_or.1 hend
      refine iff_of_false (n.not_legal_of_premature rfl ?_ ?_ fun hmem => ?_) (hend ·.1)
      · simp [Refusal.leave, CoSimulation.answered, CoSimulation.made, created, hfatal]
      · simp [Refusal.leave, CoSimulation.answered, CoSimulation.made, created, herror]
      · rcases mem_append.1 hmem with hmem | hmem
        · exact hinit hmem
        · exact hr (Prod.mk.inj (mem_singleton.1 hmem)).2.symm

end Refused

/-- No instance is created. -/
theorem create_absent {m : N} (h : n.signalled m = true ∨ (n.instantiate eventMode m).1 = false) :
    ∃ p m', n.create eventMode (.unloaded m) = .error p (.unloaded m') := by
  by_cases hsignal : n.signalled m = true
  · exact ⟨.interrupted, m, by simp [create, CoSimulation.unloaded, hsignal]⟩
  · have hnone := h.resolve_left hsignal
    by_cases hcut : n.interrupted (n.instantiate eventMode m).2 = true
    · exact ⟨.interrupted, (n.instantiate eventMode m).2,
        by simp [create, CoSimulation.unloaded, hsignal, hnone, hcut]⟩
    · exact ⟨.noInstance, (n.instantiate eventMode m).2,
        by simp [create, CoSimulation.unloaded, hsignal, hnone, hcut]⟩

/-- Closing an FMU that was not loaded is legal exactly if it is orderly. -/
theorem load_of_not_loads {m : N} (h : ¬ n.Loads eventMode starts m) :
    ∃ p s, n.load eventMode starts (.unloaded m) = .error p s ∧
      (Legal eventMode starts (n.finished s).calls ↔ n.Orderly eventMode starts m ∧ s.Heard) := by
  by_cases habsent : n.signalled m = true ∨ (n.instantiate eventMode m).1 = false
  · obtain ⟨p, m', hcreate⟩ := n.create_absent habsent
    refine ⟨p, _, by rw [load_eq, bind_of_error hcreate], iff_of_true legal_nil ⟨?_, .unloaded m'⟩⟩
    intro hsignal hcreated
    simp [hsignal, hcreated] at habsent
  obtain ⟨hsignal, hcreated⟩ : n.signalled m = false ∧ (n.instantiate eventMode m).1 = true := by
    simpa using habsent
  by_cases hcut : n.interrupted (n.instantiate eventMode m).2 = true
  · -- The instance is never freed.
    refine ⟨.interrupted, { CoSimulation.unloaded (n.instantiate eventMode m).2 with
      calls := [(.instantiate, .ok)] }, ?_, iff_of_false (fun hlegal => ?_) fun ho => ?_⟩
    · rw [load_eq, bind_of_error]
      simp [create, CoSimulation.unloaded, hsignal, hcreated, hcut]
    · have hfreed := hlegal.freed mem_cons_self
      simp [finished, CoSimulation.unloaded] at hfreed
    · simp [(ho.1 hsignal hcreated).1] at hcut
  · have hcut : n.interrupted (n.instantiate eventMode m).2 = false := by simpa using hcut
    cases hrefusal : n.refusal (n.setups starts) (n.instantiate eventMode m).2 with
    | none => exact absurd ⟨hsignal, hcreated, hcut, hrefusal⟩ h
    | some r =>
      obtain ⟨p, m₁, m₂, done, x, rest, hl, hx, hs⟩ :=
        n.forM_perform_error (s := created (n.instantiate eventMode m).2) hrefusal
      refine ⟨p, _, by rw [load_eq, bind_of_ok (n.create_eq hsignal hcreated hcut), hs], ?_⟩
      refine (n.legal_leave hl hx).trans (and_congr_left fun _ => ⟨fun hr => ?_, fun ho => ?_⟩)
      · refine fun _ _ => ⟨hcut, fun r' hr' => ?_⟩
        obtain rfl := Option.some.inj (hrefusal.symm.trans hr')
        exact hr
      · exact (ho hsignal hcreated).2 r hrefusal

end Native
end SilFormal.Fmi
