import SilFormal.Kernel.PlanSemantics
import SilFormal.Kernel.ActivationTimes
import SilFormal.Kernel.Publishes

/-!
# Interceptor plans over a whole Run

The publishes of a Channel are read off the history of the Run.  The invariant
ties them to the plan: the plan of the Channel is the compiled one after these
publishes, and the survivors are what is recorded, with consecutive sequence
numbers.
-/

namespace SilFormal.Kernel

open List

universe u

/-- The surviving part of an answer. -/
def PlanAnswer.survivor : PlanAnswer → Option (Nat × Bytes)
  | .verdict v bytes => if v.suppressed then none else some (v.visibleNs, bytes)
  | .outOfRange => none

namespace Router

variable {channel : String} {c₀ : ChannelState} {r r' : Router}

/-! ## The invariant of one Channel -/

/-- The Channel `channel` and its history, given that it started as `c₀`. -/
structure PlanInv (channel : String) (c₀ : ChannelState) (r : Router) : Prop where
  now_le : r.nowNs ≤ uint64Max
  state : r.channels channel = some
    { c₀ with
      plan := (c₀.plan.applyAll ((r.publishes channel).map Publish.input)).1
      nextSeq := (r.survivors channel).length % 2 ^ 32 }
  fits : (c₀.plan.applyAll ((r.publishes channel).map Publish.input)).1.Fits
    c₀.byteSize
  input : ∀ p ∈ r.publishes channel, p.ns ≤ uint64Max ∧ p.data.length = c₀.byteSize
  outcome : (r.publishes channel).map
      (fun p => p.outcome.map fun record => (record.publishNs, record.bytes)) =
    (c₀.plan.applyAll ((r.publishes channel).map Publish.input)).2.map
      PlanAnswer.survivor
  recorded : r.recorded channel = r.survivors channel
  seqs : (r.survivors channel).map Record.seq =
    (List.range (r.survivors channel).length).map (· % 2 ^ 32)

/-- The invariant only looks at the Channel and its routes. -/
theorem PlanInv.of_same (h : PlanInv channel c₀ r) (hnow : r'.nowNs ≤ uint64Max)
    (hchannel : r'.channels channel = r.channels channel)
    (hpublishes : r'.publishes channel = r.publishes channel)
    (hrecorded : r'.recorded channel = r.recorded channel) : PlanInv channel c₀ r' := by
  have hsurvivors : r'.survivors channel = r.survivors channel := by
    unfold survivors
    rw [hpublishes]
  constructor
  · exact hnow
  · rw [hchannel, hpublishes, hsurvivors]
    exact h.state
  · rw [hpublishes]
    exact h.fits
  · rw [hpublishes]
    exact h.input
  · rw [hpublishes]
    exact h.outcome
  · rw [hrecorded, hsurvivors]
    exact h.recorded
  · rw [hsurvivors]
    exact h.seqs

/-- One more publish with a verdict, whatever it is. -/
theorem PlanInv.of_publish (h : PlanInv channel c₀ r) {data : Bytes}
    (hsize : data.length = c₀.byteSize) {plan : InterceptorPlan} {answer : PlanAnswer}
    (happly : (c₀.plan.applyAll
      ((r.publishes channel).map Publish.input)).1.apply r.nowNs data =
        (plan, answer)) (outcome : Option Record)
    (houtcome : outcome.map (fun record => (record.publishNs, record.bytes)) =
      answer.survivor) (hseq : ∀ record ∈ outcome,
      record.seq = (r.survivors channel).length % 2 ^ 32) (hnow : r'.nowNs = r.nowNs)
    (hchannel : r'.channels channel = some
      { c₀ with
        plan := plan
        nextSeq := ((r.survivors channel).length + outcome.toList.length) % 2 ^ 32 })
    (hpublishes : r'.publishes channel =
      r.publishes channel ++ [⟨r.nowNs, data, r.globalSeq, outcome⟩])
    (hrecorded : r'.recorded channel = r.recorded channel ++ outcome.toList) :
    PlanInv channel c₀ r' := by
  have hsurvivors : r'.survivors channel = r.survivors channel ++ outcome.toList := by
    unfold survivors
    rw [hpublishes, filterMap_append]
    cases outcome <;> rfl
  have hinputs : c₀.plan.applyAll ((r'.publishes channel).map Publish.input) =
      (plan, (c₀.plan.applyAll ((r.publishes channel).map Publish.input)).2 ++ [answer]) := by
    rw [hpublishes, map_append]
    show c₀.plan.applyAll (_ ++ [(r.nowNs, data)]) = _
    rw [InterceptorPlan.applyAll_append, happly]
  have hfits := h.fits.apply r.nowNs hsize
  rw [happly] at hfits
  constructor
  · rw [hnow]
    exact h.now_le
  · rw [hchannel, hinputs, hsurvivors, length_append]
  · rw [hinputs]
    exact hfits.1
  · intro p hp
    rw [hpublishes, mem_append, mem_singleton] at hp
    rcases hp with hp | rfl
    · exact h.input p hp
    · exact ⟨h.now_le, hsize⟩
  · rw [hinputs, hpublishes, map_append, map_append, h.outcome,
      map_singleton, map_singleton, houtcome]
  · rw [hrecorded, hsurvivors, h.recorded]
  · rw [hsurvivors, map_append, h.seqs]
    cases outcome with
    | none => simp
    | some record =>
      have hrec := hseq record rfl
      rw [Option.toList_some, length_append, length_singleton,
        range_succ, map_append, map_singleton, map_singleton, hrec]

theorem PlanInv.published (h : PlanInv channel c₀ r) {owner : String} {data : Bytes}
    {error : Option String} (hpub : Published owner channel data r r' error) :
    PlanInv channel c₀ r' := by
  have hstate := h.state
  cases hpub with
  | unknown _ hnone =>
    rw [hnone] at hstate
    cases hstate
  | wrongSize c _ _ _ => exact h
  | outOfRange c plan _ hc hsize happly =>
    -- no override of a compiled plan exceeds the payload
    rw [hstate, Option.some.injEq] at hc
    subst hc
    have hno := (h.fits.apply r.nowNs hsize).2
    rw [happly] at hno
    exact absurd rfl hno
  | suppressed c plan visibleNs bytes hc hsize happly =>
    rw [hstate, Option.some.injEq] at hc
    subst hc
    refine h.of_publish hsize happly none rfl (by simp) rfl ?_ ?_ ?_
    · simp [stamp_channels, advanceChannel]
    · rw [stamp_publishes, if_pos rfl]
    · simp [Router.recorded]
  | delivered c plan visibleNs bytes _ _ hc hsize happly hpush =>
    rw [hstate, Option.some.injEq] at hc
    subst hc
    obtain ⟨hnow, _, hchannels, hrec⟩ := pushAll_frame hpush
    refine h.of_publish hsize happly
      (some ⟨channel, visibleNs, (r.survivors channel).length % 2 ^ 32, bytes⟩)
      rfl (by simp) hnow ?_ ?_ ?_
    · rw [hchannels, stamp_channels]
      simp [advanceChannel]
    · rw [(pushAll_publishes hpush).1, stamp_publishes, if_pos rfl]
    · unfold Router.recorded
      rw [hrec]
      simp

theorem PlanInv.step {ok : Bool} (h : PlanInv channel c₀ r) (hstep : Step ok r r') :
    PlanInv channel c₀ r' := by
  cases hstep with
  | tick _ hns => exact h.of_same hns rfl rfl rfl
  | activation owner _ =>
    refine h.of_same h.now_le rfl ?_ rfl
    rw [publishes_note]
    exact append_nil _
  | act hact =>
    cases hact with
    | take _ htook =>
      obtain ⟨_, rfl⟩ := htook
      refine h.of_same h.now_le rfl ?_ rfl
      rw [publishes_note]
      exact append_nil _
    | @publish n data _ _ error _ _ hpub =>
      by_cases hn : channel = n
      · subst hn
        exact h.published hpub
      · obtain ⟨hchannel, hrec, _⟩ := hpub.other hn
        exact h.of_same (hpub.nowNs_eq ▸ h.now_le) hchannel
          (hpub.publishes_other hn) hrec

theorem PlanInv.initial (hnow : r.nowNs ≤ uint64Max) (hchannel : r.channels channel = some c₀)
    (hseq : c₀.nextSeq = 0) (hfits : c₀.plan.Fits c₀.byteSize) (htrace : r.trace = [])
    (hrecording : r.recording = []) : PlanInv channel c₀ r := by
  have hpublishes : r.publishes channel = [] := by simp [Router.publishes, htrace]
  have hsurvivors : r.survivors channel = [] := by
    simp [Router.survivors, hpublishes]
  constructor
  · exact hnow
  · have hzero : ([] : List Record).length % 2 ^ 32 = c₀.nextSeq := hseq.symm
    rw [hchannel, hpublishes, hsurvivors, hzero]
    rfl
  · rw [hpublishes]
    exact hfits
  · simp [hpublishes]
  · rw [hpublishes]
    rfl
  · simp [Router.recorded, hrecording, hsurvivors]
  · simp [hsurvivors]

/-- Every publish, suppressed or not, consumes one global sequence number. -/
theorem Step.publishSeqs {ok : Bool} (hstep : Step ok r r')
    (h : r.publishSeqs = List.range r.globalSeq) : r'.publishSeqs = List.range r'.globalSeq := by
  cases hstep with
  | tick _ _ => exact h
  | activation owner _ =>
    rw [publishSeqs_note, h]
    exact append_nil _
  | act hact =>
    cases hact with
    | take _ htook =>
      obtain ⟨_, rfl⟩ := htook
      rw [publishSeqs_note]
      exact (append_nil _).trans h
    | publish _ _ hpub =>
      have hstamp : ∀ channel c plan data outcome,
          (r.stamp channel c plan data outcome).publishSeqs = range (r.globalSeq + 1) := by
        intro channel c plan data outcome
        unfold stamp
        rw [publishSeqs_note, range_succ, ← h]
        rfl
      cases hpub with
      | suppressed c plan visibleNs bytes _ _ _ => exact hstamp _ _ _ _ _
      | delivered c plan visibleNs bytes _ _ _ _ _ hpush =>
        rw [(pushAll_publishes hpush).2, hstamp, (pushAll_frame hpush).2.1]
        rfl
      | _ => exact h

/-- The instants of the publishes on a Channel. -/
def publishTimes (r : Router) (channel : String) (i : Nat) : Nat :=
  ((r.publishes channel)[i]?.map Publish.ns).getD 0

/-- The invariant in closed form: the decision on each publish in terms of
the publishes before it. -/
theorem PlanInv.exact (h : PlanInv channel c₀ r) (hplan : c₀.plan.Compiled c₀.byteSize)
    (hfew : (r.publishes channel).length < 2 ^ 64) {i : Nat} {p : Publish}
    (hp : (r.publishes channel)[i]? = some p) :
    (p.outcome = none ↔ c₀.plan.Suppressed (r.publishTimes channel) i) ∧ ∀ record ∈ p.outcome,
        record.publishNs = p.ns + delaySum c₀.plan.steps p.ns ∧
        record.bytes.length = p.data.length ∧
        ∀ b, record.bytes[b]? =
          match lastOverride c₀.plan.steps p.ns b with
          | none => p.data[b]?
          | some s => s.overrideBytes[b - s.overrideOffset]? := by
  obtain ⟨hlt, hget⟩ := List.getElem?_eq_some_iff.mp hp
  have hmem : p ∈ r.publishes channel := hget ▸ getElem_mem hlt
  obtain ⟨hns, hdata⟩ := h.input p hmem
  have htimes : InterceptorPlan.timesOf ((r.publishes channel).map Publish.input) =
      r.publishTimes channel := by
    funext j
    simp only [InterceptorPlan.timesOf, getElem?_map, Option.map_map]
    rfl
  have hnow : r.publishTimes channel i = p.ns := by
    simp [publishTimes, hp]
  have hinput : ((r.publishes channel).map Publish.input)[i]? = some (p.ns, p.data) := by
    simp [hp, Publish.input]
  -- the answer to publish `i` is the one of the plan after `i` publishes
  have hanswer := InterceptorPlan.applyAll_getElem? c₀.plan hinput
  have htake := InterceptorPlan.applyAll_take hplan
    ((r.publishes channel).map Publish.input) (by simpa using hfew)
    (by
      intro q hq
      obtain ⟨q', hq', rfl⟩ := mem_map.mp hq
      exact h.input q' hq') (by simpa using hlt.le)
  have hspec := InterceptorPlan.apply_stepsAt hplan (r.publishTimes channel)
    (i := i) (by omega) (by omega) hdata
  rw [htake, htimes] at hanswer
  rw [hnow] at hspec
  have hout : p.outcome.map (fun record => (record.publishNs, record.bytes)) =
      (((c₀.plan.withSteps (stepsAt (r.publishTimes channel) i c₀.plan.steps
        fun _ => true)).apply p.ns p.data).2).survivor := by
    have houtcome := congrArg (fun l => l[i]?) h.outcome
    simp only [getElem?_map, hp, hanswer] at houtcome
    exact Option.some.inj houtcome
  by_cases hsup : c₀.plan.Suppressed (r.publishTimes channel) i
  · obtain ⟨visibleNs, hverdict⟩ := hspec.2.1 hsup
    rw [hverdict] at hout
    have hnone : p.outcome = none := Option.map_eq_none_iff.mp hout
    simp [hnone, hsup]
  · obtain ⟨bytes, hverdict, hlen, hbytes⟩ := hspec.2.2 hsup
    rw [hverdict] at hout
    obtain ⟨record, hrecord, hpair⟩ := Option.map_eq_some_iff.mp hout
    obtain ⟨hpub, hrb⟩ := Prod.mk.inj hpair
    refine ⟨by simp [hrecord, hsup], ?_⟩
    intro record' hrecord'
    rw [hrecord, Option.mem_some_iff] at hrecord'
    subst hrecord'
    rw [hpub, hrb]
    exact ⟨rfl, hlen, hbytes⟩

end Router

namespace Manifest

variable {σ : Type u}

theorem clone_of_compiled {plan : InterceptorPlan} {byteSize : Nat} (h : plan.Compiled byteSize) :
    plan.clone = plan := by
  have hsteps : plan.steps.map (fun step => { step with windowCount := 0 }) = plan.steps := by
    conv_rhs => rw [← map_id plan.steps]
    apply map_congr_left
    intro step hstep
    rw [← (h.steps step hstep).count_zero]
    rfl
  unfold InterceptorPlan.clone InterceptorPlan.withSteps
  rw [hsteps]

end Manifest

namespace Engine

variable {σ : Type u}

open Router

/-- The invariant of a Channel with a compiled plan at the end of a Run. -/
theorem run_planInv {m : Manifest σ} {e : Engine σ} {c : ChannelSpec} (hloaded : m.Loaded)
    (hsetup : setup m = some e) (hc : c ∈ m.channels)
    (hcompiled : c.interceptorPlan.Compiled c.byteSize) :
    PlanInv c.name
      ⟨c.schema, c.byteSize, 0, c.interceptorPlan, m.subscribers c.name⟩
      e.run.router := by
  have hchannel := Manifest.channelState_eq hloaded hc
  rw [Manifest.clone_of_compiled hcompiled] at hchannel
  rw [run_router]
  refine (reach_steps false e.loop_reach (by simp)).invariant
    (fun a b ha hstep => PlanInv.step ha hstep) ?_
  rw [(setup_sameBase hsetup).router]
  exact PlanInv.initial (Nat.zero_le _) hchannel rfl
    (fun s hs => (hcompiled.steps s hs).fits) rfl rfl

/-- Interceptor plan semantics over a whole Run. -/
theorem plan_semantics (m : Manifest σ) (e : Engine σ) (c : ChannelSpec) (schema : SchemaSpec)
    (specs : List InterceptorSpec) (hloaded : m.Loaded) (hsetup : setup m = some e)
    (hc : c ∈ m.channels)
    (hplan : compileInterceptorPlan m.durationNs schema specs = some c.interceptorPlan)
    (hsize : schema.byteSize = c.byteSize)
    (hfew : (e.run.router.publishes c.name).length < 2 ^ 64) :
    -- the decision on every publish, and what a survivor carries
    (∀ i p, (e.run.router.publishes c.name)[i]? = some p → (p.outcome = none ↔
        c.interceptorPlan.Suppressed (e.run.router.publishTimes c.name) i) ∧
      ∀ record ∈ p.outcome, record.publishNs = p.ns + delaySum c.interceptorPlan.steps p.ns ∧
        record.bytes.length = p.data.length ∧
        ∀ b, record.bytes[b]? =
          match lastOverride c.interceptorPlan.steps p.ns b with
          | none => p.data[b]?
          | some s => s.overrideBytes[b - s.overrideOffset]?) ∧
      -- survivors are recorded, with consecutive 32-bit sequence numbers
      e.run.router.recorded c.name = e.run.router.survivors c.name ∧
      (e.run.router.survivors c.name).map Record.seq =
        (List.range (e.run.router.survivors c.name).length).map (· % 2 ^ 32) ∧
      -- and offered to every route of the Channel
      (e.NoFailure → ∀ o ∈ m.subscribers c.name, e.run.router.offers o c.name =
          (e.run.router.publishes c.name).filterMap Publish.message) ∧
      -- every publish of the Run consumes one global sequence number
      e.run.router.publishSeqs = List.range e.run.router.globalSeq := by
  obtain ⟨hduration, hsteps⟩ := compileInterceptorPlan_compiled hplan
  have hcompiled : c.interceptorPlan.Compiled c.byteSize :=
    ⟨hduration ▸ hloaded.duration_le, hsize ▸ hsteps⟩
  have hinv := run_planInv hloaded hsetup hc hcompiled
  refine ⟨fun i p hp => hinv.exact hcompiled hfew hp, hinv.recorded, hinv.seqs, ?_, ?_⟩
  · intro hno o ho
    exact (run_offers hloaded hsetup hc o ho).2 (hno _ e.loop_reach)
  · rw [run_router]
    refine (reach_steps false e.loop_reach (by simp)).invariant
      (fun a b ha hstep => hstep.publishSeqs ha) ?_
    rw [(setup_sameBase hsetup).router]
    rfl

/-- A sensor whose Channel drops every second Message, delays what is
published before 5 ns and overwrites the payload from 20 ns on. -/
def faultySpecs : List InterceptorSpec :=
  [⟨.dropNth, 0, none, none, some 2, "", .unsigned 0⟩,
    ⟨.delay, 0, some 5, some 15, none, "", .unsigned 0⟩,
    ⟨.override, 20, none, none, none, "level", .unsigned 7⟩]

def faultyChannel : ChannelSpec :=
  ⟨"speed", "level", 1, none, ⟨50,
      [⟨.dropNth, 0, 0, false, 2, 0, 0, []⟩, ⟨.delay, 0, 5, true, 15, 0, 0, []⟩,
        ⟨.override, 20, 0, false, 0, 0, 0, [7]⟩]⟩⟩

def faultyManifest : Manifest Unit where
  durationNs := 50
  channels := [faultyChannel]
  participants :=
    [⟨"display", .process 10 [⟨"speed", none, .fail⟩] [] 0
        (fun _ _ _ _ => .stepDone () []) (fun _ => none)⟩,
      ⟨"sensor", .native [] ["speed"]
        [⟨"sample", 10, 0, 0, fun now _ => .publish "speed" [UInt8.ofNat now] fun _ => .ret ()⟩]⟩]
  initial := fun _ => ()
  limits := {}

theorem plan_semantics_faulty : ∃ e, setup faultyManifest = some e ∧ e.run.router.recorded "speed" =
        [⟨"speed", 15, 0, [0]⟩, ⟨"speed", 20, 1, [7]⟩, ⟨"speed", 40, 2, [7]⟩] ∧
      (e.run.router.survivors "speed").map Record.seq =
        (List.range (e.run.router.survivors "speed").length).map (· % 2 ^ 32) := by
  have hloaded : faultyManifest.Loaded :=
    ⟨by decide, by decide, by decide, by decide, by decide, by decide⟩
  refine ⟨_, rfl, rfl, ?_⟩
  exact (plan_semantics faultyManifest _ faultyChannel ⟨[⟨"level", "u8", 0⟩]⟩
    faultySpecs hloaded rfl (by simp [faultyManifest]) rfl rfl (by decide)).2.2.1

/-! ## The 32-bit sequence number wraps -/

/-- A callback that publishes `n` Messages. -/
def burst : Nat → NativeCode Unit
  | 0 => .ret ()
  | n + 1 => .publish "count" [0] fun _ => burst n

def burstManifest (n : Nat) : Manifest Unit where
  durationNs := 1
  channels := [⟨"count", "byte", 1, none, ⟨1, []⟩⟩]
  participants :=
    [⟨"counter", .native [] ["count"] [⟨"burst", 1, 0, 0, fun _ _ => burst n⟩]⟩]
  initial := fun _ => ()
  limits := {}

/-- The Channel of the burst lets every Message through. -/
theorem publish_burst {r : Router} {seq : Nat} (hnow : r.nowNs = 0)
    (hchannel : r.channels "count" = some ⟨"byte", 1, seq, ⟨1, []⟩, []⟩) :
    r.publish "counter" "count" [0] = (r.stamp "count" ⟨"byte", 1, seq, ⟨1, []⟩, []⟩ ⟨1, []⟩ [0]
        (some ⟨"count", 0, seq, [0]⟩), none) := by
  unfold Router.publish
  rw [hchannel, hnow]
  rfl

theorem runNative_burst (n : Nat) {r : Router} {seq : Nat} (hnow : r.nowNs = 0)
    (hchannel : r.channels "count" = some ⟨"byte", 1, seq, ⟨1, []⟩, []⟩) :
    (runNative "counter" ⟨[], ["count"]⟩ (burst n) r none).2.1 = none ∧
      ((runNative "counter" ⟨[], ["count"]⟩ (burst n) r none).1.publishes
        "count").length = (r.publishes "count").length + n ∧
      ((runNative "counter" ⟨[], ["count"]⟩ (burst n) r none).1.survivors
        "count").length = (r.survivors "count").length + n := by
  induction n generalizing r seq with
  | zero => exact ⟨rfl, rfl, rfl⟩
  | succ n ih =>
    have hpub := publish_burst hnow hchannel
    generalize hstamp : r.stamp "count" ⟨"byte", 1, seq, ⟨1, []⟩, []⟩ ⟨1, []⟩ [0]
      (some ⟨"count", 0, seq, [0]⟩) = r' at hpub
    have hrun : runNative "counter" ⟨[], ["count"]⟩ (burst (n + 1)) r none =
        runNative "counter" ⟨[], ["count"]⟩ (burst n) r' none := by
      conv_lhs => unfold burst runNative
      rw [if_pos (by simp), hpub]
    have hpubs : r'.publishes "count" =
        r.publishes "count" ++ [⟨r.nowNs, [0], r.globalSeq, some ⟨"count", 0, seq, [0]⟩⟩] := by
      rw [← hstamp, stamp_publishes, if_pos rfl]
    have hnow' : r'.nowNs = 0 := by
      rw [← hstamp]
      exact hnow
    have hchannel' : r'.channels "count" = some ⟨"byte", 1, (seq + 1) % 2 ^ 32, ⟨1, []⟩, []⟩ := by
      rw [← hstamp]
      rfl
    obtain ⟨hfail, hlen, hsurv⟩ := ih hnow' hchannel'
    rw [hrun]
    refine ⟨hfail, ?_, ?_⟩
    · rw [hlen, hpubs, length_append, length_singleton]
      omega
    · have hsurvivors : (r'.survivors "count").length = (r.survivors "count").length + 1 := by
        unfold survivors
        rw [hpubs, filterMap_append, length_append]
        rfl
      omega

/-- The one Task of the burst. -/
def burstTask (n : Nat) : Task Unit :=
  ⟨"counter", "burst", 1, 0, 0, 0, .native fun _ _ => burst n, false⟩

def burstEngine (n : Nat) : Engine Unit :=
  { create (burstManifest n) with
    tasks := [burstTask n]
    nextRegistrationIndex := 1 }

/-- The Run of the burst: one Slot, in which all Messages survive. -/
theorem run_burst (n : Nat) :
    setup (burstManifest n) = some (burstEngine n) ∧ (burstEngine n).Completes ∧
      ((burstEngine n).run.router.publishes "count").length = n ∧
      ((burstEngine n).run.router.survivors "count").length = n := by
  generalize hfirst : ((burstEngine n).openSlot 0).activate (burstTask n) = e₁
  have hcall : ((burstEngine n).openSlot 0).call (burstTask n) =
      runNative "counter" ⟨[], ["count"]⟩ (burst n)
        (((burstEngine n).openSlot 0).router.note (.activation "counter" 0)) none := rfl
  obtain ⟨hfail, hpublishes, hsurvivors⟩ := runNative_burst n
    (r := ((burstEngine n).openSlot 0).router.note (.activation "counter" 0)) rfl rfl
  rw [← hcall] at hfail hpublishes hsurvivors
  have hfailure : e₁.failure = none := hfirst ▸ hfail
  have htasks : e₁.tasks = [(burstTask n).advance 1] := by
    rw [← hfirst]
    simp only [activate, hfail]
    rfl
  have hslot : e₁.slot = uint64Max := by
    have hreplayers : e₁.replayers = [] := hfirst ▸ rfl
    unfold slot
    rw [htasks, hreplayers]
    rfl
  have hstep₁ : (burstEngine n).step = some e₁ := by
    rw [← hfirst]
    rfl
  have hstep₂ : e₁.step = none := by
    unfold step
    rw [hfailure, hslot]
    rfl
  have hloop : (burstEngine n).loop = e₁ := by
    show Loop.run step 2 (burstEngine n) = e₁
    rw [Loop.run_succ_some hstep₁, Loop.run_succ_none hstep₂]
  have hprocesses : e₁.processes = [] := hfirst ▸ rfl
  refine ⟨rfl, ?_, ?_, ?_⟩
  · unfold Completes run shutdown
    rw [hloop, hfailure, hprocesses]
    exact hfailure
  · rw [run_router, hloop, ← hfirst]
    exact hpublishes.trans (Nat.zero_add n)
  · rw [run_router, hloop, ← hfirst]
    exact hsurvivors.trans (Nat.zero_add n)

/-- After 2^32 surviving Messages the recorded sequence number starts again:
the numbers of a longer Run are not 0, 1, 2, ... -/
theorem sequence_number_wraps :
    ∃ e : Engine Unit, setup (burstManifest (2 ^ 32 + 1)) = some e ∧ e.Completes ∧
      (e.run.router.publishes "count").length < 2 ^ 64 ∧
      (e.run.router.recorded "count").map Record.seq ≠
        List.range (e.run.router.recorded "count").length := by
  obtain ⟨hsetup, hcompletes, hlen, hsurv⟩ := run_burst (2 ^ 32 + 1)
  refine ⟨_, hsetup, hcompletes, by omega, ?_⟩
  have hloaded : (burstManifest (2 ^ 32 + 1)).Loaded :=
    ⟨by decide, by decide, by decide, by simp [burstManifest, ParticipantSpec.subscribes],
      by decide, by simp [burstManifest, ParticipantSpec.isReplay]⟩
  have hinv := run_planInv hloaded hsetup (c := ⟨"count", "byte", 1, none, ⟨1, []⟩⟩)
    (by simp [burstManifest]) ⟨by decide, by simp⟩
  rw [hinv.recorded, hinv.seqs, hsurv]
  intro heq
  have hlast := congrArg (fun l => l[2 ^ 32]?) heq
  simp only [getElem?_map, getElem?_range (Nat.lt_succ_self (2 ^ 32)),
    Option.map_some, Option.some.injEq] at hlast
  omega

end Engine

end SilFormal.Kernel
