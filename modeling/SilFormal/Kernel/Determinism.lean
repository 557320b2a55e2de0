import SilFormal.Kernel.Views

/-!
# An activation is determined by its participant's view

What an activation answers, and what it does to the ready routes of its owner
and to the Channels its owner publishes, depends on these only.  Everything
else it leaves alone.  A Native callback has this property whatever its code
is; a Process Step has it when the child does not look at the order of inputs
across Channels.
-/

namespace SilFormal.Kernel

open List

universe u

variable {σ : Type u}

/-- A Step function that depends on the inputs of each route, not on how the
inputs of different routes are merged. -/
def Routewise (step : Nat → Nat → σ → List StepInput → StepReply σ) : Prop :=
  ∀ nowNs periodNs state inputs inputs', (∀ c, inputs.filter (fun i => i.channel = c) =
      inputs'.filter (fun i => i.channel = c)) →
    step nowNs periodNs state inputs = step nowNs periodNs state inputs'

/-- A deterministic Task: whatever a Native callback does, and a Step that
depends on each route. -/
def TaskFn.Routewise : TaskFn σ → Prop
  | .native _ => True
  | .process step => Kernel.Routewise step

namespace Router

/-- Two routing states are the same to a participant. -/
structure SameFor (keep : String → Bool) (owner : String) (publishes : List String)
    (r r' : Router) : Prop where
  now : r.nowNs = r'.nowNs
  taking : SameOwner owner r r'
  publishing : ∀ c ∈ publishes, SameChannel keep c r r'

variable
    {keep : String → Bool} {owner : String} {publishes : List String}
    {r r' : Router}

namespace SameFor

theorem publish (h : SameFor keep owner publishes r r') (hopen : r.Open) (hopen' : r'.Open)
    {channel : String} (hmem : channel ∈ publishes) (data : Bytes) :
    (r.publish owner channel data).2 = (r'.publish owner channel data).2 ∧
      SameFor keep owner publishes (r.publish owner channel data).1
        (r'.publish owner channel data).1 ∧
      (r.publish owner channel data).1.Open ∧
      (r'.publish owner channel data).1.Open := by
  rcases hpub : r.publish owner channel data with ⟨r₁, error⟩
  obtain ⟨r₁', hpub', hchannel⟩ :=
    publish_determined hopen hopen' h.now (h.publishing channel hmem) hpub
  rw [hpub']
  have hspec := publish_spec hpub
  have hspec' := publish_spec hpub'
  refine ⟨rfl, ⟨?_, ?_, fun c hc => ?_⟩, hspec.keeps_open hopen, hspec'.keeps_open hopen'⟩
  · exact hspec.nowNs_eq.trans (h.now.trans hspec'.nowNs_eq.symm)
  · exact ((hspec.sameOwner hopen owner).symm.trans h.taking).trans
      (hspec'.sameOwner hopen' owner)
  · by_cases hcc : c = channel
    · subst hcc
      exact hchannel
    · exact ((hspec.sameChannel_other keep hcc).symm.trans (h.publishing c hc)).trans
        (hspec'.sameChannel_other keep hcc)

theorem take (h : SameFor keep owner publishes r r') (hopen : r.Open) (hopen' : r'.Open)
    (channel : String) :
    (r.take owner channel = none ∧ r'.take owner channel = none) ∨
      ∃ m m' r₁ r₁', r.take owner channel = some (m, r₁) ∧
        r'.take owner channel = some (m', r₁') ∧ m.content = m'.content ∧
        SameFor keep owner publishes r₁ r₁' ∧ r₁.Open ∧ r₁'.Open := by
  rcases take_determined h.taking channel with hnone | ⟨m, m', r₁, r₁', ht, ht', hm, hsame⟩
  · exact .inl hnone
  · have htook := take_spec ht
    have htook' := take_spec ht'
    refine .inr ⟨m, m', r₁, r₁', ht, ht', hm, ⟨?_, hsame, fun c hc => ?_⟩,
      htook.keeps_open hopen, htook'.keeps_open hopen'⟩
    · exact htook.frame.1.trans (h.now.trans htook'.frame.1.symm)
    · exact ((htook.sameChannel keep c).symm.trans (h.publishing c hc)).trans
        (htook'.sameChannel keep c)

end SameFor

/-- Service calls of one participant do not concern other owners, nor Channels
it does not publish. -/
theorem acts_frame (keep : String → Bool) {ok : Bool} {contract : Contract} {r₁ : Router}
    (hacts : Acts ok owner contract r r₁) (hopen : r.Open) :
    r₁.Open ∧ (∀ o, o ≠ owner → SameOwner o r r₁) ∧
      ∀ c, c ∉ contract.publishes → SameChannel keep c r r₁ := by
  refine hacts.invariant
    (I := fun x => x.Open ∧ (∀ o, o ≠ owner → SameOwner o r x) ∧
      ∀ c, c ∉ contract.publishes → SameChannel keep c r x)
    (fun a b ha hact => ?_) ⟨hopen, fun o _ => .refl o r, fun c _ => .refl keep c r⟩
  obtain ⟨haopen, howners, hchannels⟩ := ha
  cases hact with
  | take _ htook =>
    exact ⟨htook.keeps_open haopen, fun o ho => (howners o ho).trans (htook.sameOwner_other ho),
      fun c hc => (hchannels c hc).trans (htook.sameChannel keep c)⟩
  | publish hmem _ hpub =>
    refine ⟨hpub.keeps_open haopen,
      fun o ho => (howners o ho).trans (hpub.sameOwner haopen o), fun c hc => ?_⟩
    have hne : c ≠ _ := fun heq => hc (heq ▸ hmem)
    exact (hchannels c hc).trans (hpub.sameChannel_other keep hne)

/-- Nothing is ready on a route that was drained. -/
theorem ready_drained (route : SubscriberRoute) (nowNs : Nat) :
    (route.drained nowNs).ready nowNs = [] := by
  have hnil : ∀ (p : PendingMessage → Bool) (l : List PendingMessage),
      (l.dropWhile p).takeWhile p = [] := by
    intro p l
    induction l with
    | nil => rfl
    | cons m rest ih =>
      by_cases hm : p m = true
      · rw [dropWhile_cons_of_pos hm, ih]
      · rw [dropWhile_cons_of_neg hm, takeWhile_cons_of_neg hm]
  exact hnil _ _

theorem SameFor.takeInputs (h : SameFor keep owner publishes r r') (hopen : r.Open)
    (hopen' : r'.Open) (inputs : List String) :
    (∀ c, (r.takeInputs owner inputs).1.filter (fun i => i.channel = c) =
        (r'.takeInputs owner inputs).1.filter fun i => i.channel = c) ∧
      SameFor keep owner publishes (r.takeInputs owner inputs).2
        (r'.takeInputs owner inputs).2 ∧
      (r.takeInputs owner inputs).2.Open ∧ (r'.takeInputs owner inputs).2.Open := by
  have hd := takeInputs_drained owner inputs r
  have hd' := takeInputs_drained owner inputs r'
  have hacts := merge_acts false owner ⟨inputs, []⟩ (mergeFuel owner inputs r) r
  have hacts' := merge_acts false owner ⟨inputs, []⟩ (mergeFuel owner inputs r') r'
  obtain ⟨hopen₁, _, hchannel⟩ := acts_frame keep hacts hopen
  obtain ⟨hopen₁', _, hchannel'⟩ := acts_frame keep hacts' hopen'
  have hmap : ∀ c (l : List PendingMessage),
      l.map (fun m => (⟨c, m.publishNs, m.bytes⟩ : StepInput)) =
        (l.map PendingMessage.content).map fun p => ⟨c, p.1, p.2⟩ := by
    intro c l
    rw [map_map]
    rfl
  have htook : ∀ l : List PendingMessage, (l.map Fifo.Event.took).filterMap intakeEvent =
        (l.map PendingMessage.content).map .took := by
    intro l
    rw [filterMap_map, map_map]
    exact congrFun (filterMap_eq_map) l
  refine ⟨fun c => ?_, ⟨?_, ⟨fun c => ?_, fun c => ?_, fun c => ?_⟩, fun c hc => ?_⟩,
    hopen₁, hopen₁'⟩
  · by_cases hc : c ∈ inputs
    · rw [hd.taken_eq c hc, hd'.taken_eq c hc, hmap, hmap]
      exact congrArg _ (h.taking.ready c)
    · rw [(hd.other c hc).1, (hd'.other c hc).1]
  · exact hd.frame.1.trans (h.now.trans hd'.frame.1.symm)
  · by_cases hc : c ∈ inputs
    · rw [hd.route c hc, hd'.route c hc]
      exact h.taking.latency c
    · rw [(hd.other c hc).2.1, (hd'.other c hc).2.1]
      exact h.taking.latency c
  · by_cases hc : c ∈ inputs
    · rw [readyContent, readyContent, hd.route c hc, hd'.route c hc, hd.frame.1,
        hd'.frame.1, ready_drained, ready_drained]
    · rw [readyContent, readyContent, (hd.other c hc).2.1, (hd'.other c hc).2.1,
        hd.frame.1, hd'.frame.1]
      exact h.taking.ready c
  · by_cases hc : c ∈ inputs
    · rw [intake, intake, hd.history c hc, hd'.history c hc, filterMap_append,
        filterMap_append, htook, htook]
      exact congrArg₂ _ (h.taking.intake c) (congrArg _ (h.taking.ready c))
    · rw [intake, intake, (hd.other c hc).2.2, (hd'.other c hc).2.2]
      exact h.taking.intake c
  · exact ((hchannel c not_mem_nil).symm.trans (h.publishing c hc)).trans
      (hchannel' c not_mem_nil)

theorem SameFor.activated (h : SameFor keep owner publishes r r') :
    SameFor keep owner publishes (r.note (.activation owner r.nowNs))
      (r'.note (.activation owner r'.nowNs)) := by
  refine ⟨h.now, ⟨h.taking.latency, h.taking.ready, fun c => ?_⟩, fun c hc => ?_⟩
  · rw [intake_note, intake_note, h.taking.intake c, h.now]
  · obtain ⟨h1, h2, h3⟩ := h.publishing c hc
    exact ⟨h1, h2, h3⟩

/-- Both routing states after the same participant's code, with the same
answer. -/
structure Agreeing (keep : String → Bool) (owner : String) (publishes : List String) {α : Type u}
    (out out' : Router × α) : Prop where
  answer : out.2 = out'.2
  same : SameFor keep owner publishes out.1 out'.1
  left_open : out.1.Open
  right_open : out'.1.Open

end Router

open Router

section Code

variable
    {keep : String → Bool} {owner : String} {contract : Contract}
    {r r' : Router}

theorem runNative_determined (h : SameFor keep owner contract.publishes r r') (hopen : r.Open)
    (hopen' : r'.Open) (code : NativeCode σ) (failure : Option RunError) :
    Agreeing keep owner contract.publishes
      (runNative owner contract code r failure)
      (runNative owner contract code r' failure) := by
  induction code generalizing r r' failure with
  | ret state => exact ⟨rfl, h, hopen, hopen'⟩
  | take channel resume ih =>
    simp only [runNative]
    by_cases hmem : channel ∈ contract.subscribes
    · rw [if_pos hmem, if_pos hmem]
      rcases h.take hopen hopen' channel with
        ⟨ht, ht'⟩ | ⟨m, m', r₁, r₁', ht, ht', hm, hsame, ho, ho'⟩
      · rw [ht, ht']
        exact ih _ h hopen hopen' failure
      · have hbytes : m.bytes = m'.bytes := congrArg Prod.snd hm
        rw [ht, ht']
        simp only [hbytes]
        exact ih _ hsame ho ho' failure
    · rw [if_neg hmem, if_neg hmem, h.now]
      exact ih _ h hopen hopen' _
  | publish channel data resume ih =>
    simp only [runNative]
    by_cases hmem : channel ∈ contract.publishes
    · rw [if_pos hmem, if_pos hmem]
      obtain ⟨herror, hsame, ho, ho'⟩ := h.publish hopen hopen' hmem data
      rcases hpub : r.publish owner channel data with ⟨r₁, error⟩
      rcases hpub' : r'.publish owner channel data with ⟨r₁', error'⟩
      rw [hpub, hpub'] at hsame herror
      rw [hpub] at ho
      rw [hpub'] at ho'
      obtain rfl : error = error' := herror
      cases error with
      | none => exact ih _ hsame ho ho' failure
      | some text =>
        simp only [h.now]
        exact ih _ hsame ho ho' _
    · rw [if_neg hmem, if_neg hmem, h.now]
      exact ih _ h hopen hopen' _
  | fail reason resume ih =>
    simp only [runNative, h.now]
    exact ih h hopen hopen' _

theorem publishOutputs_determined (h : SameFor keep owner contract.publishes r r') (hopen : r.Open)
    (hopen' : r'.Open) {outputs : List StepOutput}
    (hmem : ∀ o ∈ outputs, o.channel ∈ contract.publishes) :
    Agreeing keep owner contract.publishes
      (publishOutputs owner outputs r) (publishOutputs owner outputs r') := by
  induction outputs generalizing r r' with
  | nil => exact ⟨rfl, h, hopen, hopen'⟩
  | cons output rest ih =>
    obtain ⟨herror, hsame, ho, ho'⟩ :=
      h.publish hopen hopen' (hmem output (by simp)) output.bytes
    simp only [publishOutputs]
    rcases hpub : r.publish owner output.channel output.bytes with ⟨r₁, error⟩
    rcases hpub' : r'.publish owner output.channel output.bytes with ⟨r₁', error'⟩
    rw [hpub, hpub'] at hsame herror
    rw [hpub] at ho
    rw [hpub'] at ho'
    obtain rfl : error = error' := herror
    cases error with
    | none => exact ih hsame ho ho' fun o hmo => hmem o (mem_cons_of_mem _ hmo)
    | some text => exact ⟨rfl, hsame, ho, ho'⟩

theorem settleStep_determined (h : SameFor keep owner contract.publishes r r') (hopen : r.Open)
    (hopen' : r'.Open) (limits : RunBoundaryLimits) (periodNs nowNs : Nat) (reply : StepReply σ) :
    Agreeing keep owner contract.publishes
      (settleStep owner contract limits periodNs nowNs reply r)
      (settleStep owner contract limits periodNs nowNs reply r') := by
  cases reply with
  | failed reason => exact ⟨rfl, h, hopen, hopen'⟩
  | broken message => exact ⟨rfl, h, hopen, hopen'⟩
  | stepDone state outputs =>
    simp only [settleStep]
    cases hcheck : checkOutputs owner contract limits periodNs nowNs outputs with
    | some error => exact ⟨rfl, h, hopen, hopen'⟩
    | none =>
      obtain ⟨hanswer, hsame, ho, ho'⟩ := publishOutputs_determined h hopen hopen'
        (mem_publishes_of_checkOutputs hcheck)
      exact ⟨congrArg (fun error => (error, some state)) hanswer, hsame, ho, ho'⟩

theorem runProcess_determined {step : Nat → Nat → σ → List StepInput → StepReply σ}
    (hstep : Routewise step) (h : SameFor keep owner contract.publishes r r') (hopen : r.Open)
    (hopen' : r'.Open) (limits : RunBoundaryLimits) (periodNs : Nat) (state : σ) :
    Agreeing keep owner contract.publishes
      (runProcess owner contract limits periodNs step state r)
      (runProcess owner contract limits periodNs step state r') := by
  obtain ⟨hinputs, hsame, ho, ho'⟩ := h.takeInputs hopen hopen' contract.subscribes
  simp only [runProcess]
  rw [hstep r.nowNs periodNs state _ _ hinputs, h.now]
  exact settleStep_determined hsame ho ho' limits periodNs _ _

end Code

end SilFormal.Kernel
