import SilFormal.Kernel.Engine
import SilFormal.Kernel.RouterLemmas

/-!
# What participants can do to the routing state

Whatever the code of a participant is, an activation reaches the kernel only
by takes on declared inputs and publishes on declared outputs.  `Acts` is the
closure of these two actions.  Each kind of activation is shown once to be a
sequence of actions, so an invariant of the routing state needs one lemma per
action and nothing about participants.
-/

namespace SilFormal.Kernel

universe u

namespace Router

/-- One service call of `owner` under its Channel contract.  With `ok` set
only publishes without an error count. -/
inductive Act (ok : Bool) (owner : String) (contract : Contract) : Router → Router → Prop
  | take {channel : String} {m : PendingMessage} {r r' : Router} : channel ∈ contract.subscribes →
      Took owner channel m r r' →
      Act ok owner contract r r'
  | publish
      {channel : String} {data : Bytes} {r r' : Router}
      {error : Option String} :
      channel ∈ contract.publishes →
      (ok = true → error = none) →
      Published owner channel data r r' error →
      Act ok owner contract r r'

/-- Any number of service calls. -/
abbrev Acts (ok : Bool) (owner : String) (contract : Contract) : Router → Router → Prop :=
  Relation.ReflTransGen (Act ok owner contract)

section Acts

variable {ok : Bool} {owner : String} {contract : Contract} {r r' : Router}

theorem Acts.invariant {I : Router → Prop} (hact : ∀ a b, I a → Act ok owner contract a b → I b)
    (h : Acts ok owner contract r r') (hr : I r) : I r' := by
  induction h with
  | refl => exact hr
  | tail _ hstep ih => exact hact _ _ ih hstep

theorem Act.nowNs_eq (h : Act ok owner contract r r') : r'.nowNs = r.nowNs := by
  cases h with
  | take _ htook => exact htook.frame.1
  | publish _ _ hpub => exact hpub.nowNs_eq

theorem Acts.nowNs_eq (h : Acts ok owner contract r r') : r'.nowNs = r.nowNs :=
  h.invariant (I := fun x => x.nowNs = r.nowNs)
    (fun _ _ ha hact => hact.nowNs_eq.trans ha) rfl

end Acts

end Router

open Router

section Participants

variable {σ : Type u} (ok : Bool)

theorem merge_acts (owner : String) (contract : Contract) (fuel : Nat) (r : Router) :
    Acts ok owner contract r (merge owner contract.subscribes fuel r).2 := by
  induction fuel generalizing r with
  | zero => exact .refl
  | succ fuel ih =>
    unfold merge
    cases hbest : r.best owner contract.subscribes with
    | none => exact .refl
    | some channel =>
      cases htake : r.take owner channel with
      | none =>
        simp only [htake]
        exact .refl
      | some out =>
        obtain ⟨m, r'⟩ := out
        have hact : Act ok owner contract r r' :=
          .take (best_eq_some owner r hbest).1 (take_spec htake)
        simp only [htake]
        exact .head hact (ih r')

theorem keepFirst_ne_none (owner : String) (nowNs : Nat) (failure : Option RunError)
    (reason : String) : keepFirst owner nowNs failure reason ≠ none := by
  unfold keepFirst
  cases failure <;> simp

theorem runNative_keeps_failure (owner : String) (contract : Contract) (code : NativeCode σ)
    (r : Router) {failure : Option RunError} (h : failure ≠ none) :
    (runNative owner contract code r failure).2.1 ≠ none := by
  induction code generalizing r failure with
  | ret state => exact h
  | take channel resume ih =>
    unfold runNative
    split_ifs
    · cases r.take owner channel with
      | none => exact ih _ r h
      | some out => exact ih _ out.2 h
    · exact ih _ r (keepFirst_ne_none _ _ _ _)
  | publish channel data resume ih =>
    unfold runNative
    split_ifs
    · rcases r.publish owner channel data with ⟨r', error⟩
      cases error with
      | none => exact ih _ r' h
      | some text => exact ih _ r' (keepFirst_ne_none _ _ _ _)
    · exact ih _ r (keepFirst_ne_none _ _ _ _)
  | fail reason resume ih => exact ih r (keepFirst_ne_none _ _ _ _)

theorem runNative_acts (owner : String) (contract : Contract) (code : NativeCode σ) (r : Router)
    (failure : Option RunError)
    (hok : ok = true → (runNative owner contract code r failure).2.1 = none) :
    Acts ok owner contract r (runNative owner contract code r failure).1 := by
  induction code generalizing r failure with
  | ret state => exact .refl
  | take channel resume ih =>
    unfold runNative at hok ⊢
    by_cases hmem : channel ∈ contract.subscribes
    · rw [if_pos hmem] at hok ⊢
      cases htake : r.take owner channel with
      | none =>
        rw [htake] at hok
        exact ih _ r failure hok
      | some out =>
        obtain ⟨m, r'⟩ := out
        rw [htake] at hok
        exact .head (.take hmem (take_spec htake)) (ih _ r' failure hok)
    · rw [if_neg hmem] at hok ⊢
      exact ih _ r _ hok
  | publish channel data resume ih =>
    unfold runNative at hok ⊢
    by_cases hmem : channel ∈ contract.publishes
    · rw [if_pos hmem] at hok ⊢
      rcases hpub : r.publish owner channel data with ⟨r', error⟩
      rw [hpub] at hok
      cases error with
      | none =>
        exact .head (.publish hmem (fun _ => rfl) (publish_spec hpub))
          (ih _ r' failure hok)
      | some text =>
        -- the error is kept as a failure
        have hnot : ok = true → some text = none := fun h =>
          absurd (hok h) (runNative_keeps_failure _ _ _ _
            (keepFirst_ne_none _ _ _ _))
        exact .head (.publish hmem hnot (publish_spec hpub)) (ih _ r' _ hok)
    · rw [if_neg hmem] at hok ⊢
      exact ih _ r _ hok
  | fail reason resume ih => exact ih r _ hok

theorem publishOutputs_acts (owner : String) (contract : Contract) (outputs : List StepOutput)
    (hmem : ∀ o ∈ outputs, o.channel ∈ contract.publishes) (r : Router)
    (hok : ok = true → (publishOutputs owner outputs r).2 = none) :
    Acts ok owner contract r (publishOutputs owner outputs r).1 := by
  induction outputs generalizing r with
  | nil => exact .refl
  | cons output rest ih =>
    unfold publishOutputs at hok ⊢
    rcases hpub : r.publish owner output.channel output.bytes with ⟨r', error⟩
    rw [hpub] at hok
    cases error with
    | none =>
      exact .head
        (.publish (hmem output (by simp)) (fun _ => rfl) (publish_spec hpub))
        (ih (fun o ho => hmem o (List.mem_cons_of_mem _ ho)) r' hok)
    | some text =>
      have hnot : ok = true → some text = none := fun h => by cases hok h
      exact .single (.publish (hmem output (by simp)) hnot (publish_spec hpub))

/-- A Step that passes the guards publishes on declared Channels only. -/
theorem mem_publishes_of_checkOutputs {owner : String} {contract : Contract}
    {limits : RunBoundaryLimits} {periodNs nowNs : Nat} {outputs : List StepOutput}
    (h : checkOutputs owner contract limits periodNs nowNs outputs = none) :
    ∀ o ∈ outputs, o.channel ∈ contract.publishes := by
  unfold checkOutputs at h
  cases hfind : outputs.find? (fun o => decide (o.channel ∉ contract.publishes)) with
  | some o =>
    simp only [hfind] at h
    split_ifs at h
  | none =>
    intro o ho
    have := List.find?_eq_none.mp hfind o ho
    simpa using this

/-- The answer of a Step is only published: nothing is taken any more,
whatever the inputs are. -/
theorem settleStep_acts (owner : String) (contract : Contract) (limits : RunBoundaryLimits)
    (periodNs nowNs : Nat) (reply : StepReply σ) (r : Router) (inputs : List String)
    (hok : ok = true → (settleStep owner contract limits periodNs nowNs reply r).2.1 = none) :
    Acts ok owner ⟨inputs, contract.publishes⟩ r
      (settleStep owner contract limits periodNs nowNs reply r).1 := by
  cases reply with
  | failed reason => exact .refl
  | broken message => exact .refl
  | stepDone state outputs =>
    unfold settleStep at hok ⊢
    cases hcheck : checkOutputs owner contract limits periodNs nowNs outputs with
    | some error =>
      simp only [hcheck]
      exact .refl
    | none =>
      simp only [hcheck] at hok ⊢
      exact publishOutputs_acts ok owner ⟨inputs, contract.publishes⟩ outputs
        (mem_publishes_of_checkOutputs hcheck) r hok

theorem runProcess_acts (owner : String) (contract : Contract) (limits : RunBoundaryLimits)
    (periodNs : Nat) (step : Nat → Nat → σ → List StepInput → StepReply σ) (state : σ) (r : Router)
    (hok : ok = true → (runProcess owner contract limits periodNs step state r).2.1 = none) :
    Acts ok owner contract r
      (runProcess owner contract limits periodNs step state r).1 :=
  (merge_acts ok owner contract _ r).trans
    (settleStep_acts ok owner contract _ _ _ _ _ contract.subscribes hok)

/-- What a Replay participant may do: publish on its Channels. -/
def Replayer.contract (r : Replayer) : Contract :=
  ⟨[], r.channels⟩

theorem Replayer.publishFrom_acts (r : Replayer) (nowNs : Nat) (messages : List RecordedMessage)
    (router : Router) (hok : ok = true → (r.publishFrom nowNs messages router).2.2 = none) :
    Acts ok r.name r.contract router
      (r.publishFrom nowNs messages router).2.1 := by
  induction messages generalizing router with
  | nil => exact .refl
  | cons m rest ih =>
    unfold publishFrom at hok ⊢
    by_cases hsel : r.selects m = true
    · rw [if_pos hsel] at hok ⊢
      by_cases hnow : m.publishNs = nowNs
      · rw [if_pos hnow] at hok ⊢
        have hmem : m.channel ∈ r.channels := by
          unfold selects at hsel
          simp only [Bool.and_eq_true, decide_eq_true_eq] at hsel
          exact hsel.1
        rcases hpub : router.publish r.name m.channel m.bytes with ⟨router', error⟩
        rw [hpub] at hok
        cases error with
        | none =>
          exact .head (.publish hmem (fun _ => rfl) (publish_spec hpub))
            (ih router' hok)
        | some text =>
          have hnot : ok = true → some text = none := fun h => by cases hok h
          exact .single (.publish hmem hnot (publish_spec hpub))
      · rw [if_neg hnow]
    · rw [if_neg hsel] at hok ⊢
      exact ih router hok

namespace Engine

theorem call_acts (e : Engine σ) (t : Task σ) (hok : ok = true → (e.call t).2.1 = none) :
    Acts ok t.owner (e.contracts t.owner)
      (e.router.note (.activation t.owner e.router.nowNs)) (e.call t).1 := by
  unfold call at hok ⊢
  cases hfn : t.fn with
  | native fn =>
    simp only [hfn] at hok ⊢
    exact runNative_acts ok _ _ _ _ _ hok
  | process step =>
    simp only [hfn] at hok ⊢
    exact runProcess_acts ok _ _ _ _ _ _ _ hok

theorem activate_nowNs (e : Engine σ) (t : Task σ) : (e.activate t).router.nowNs = e.router.nowNs :=
  (e.call_acts false t (by simp)).nowNs_eq

theorem replay_nowNs (e : Engine σ) (r : Replayer) : (e.replay r).router.nowNs = e.router.nowNs :=
  (r.publishFrom_acts false e.router.nowNs r.reader e.router (by simp)).nowNs_eq

end Engine

end Participants

/-! ## Steps of the routing state over a whole Run -/

namespace Router

/-- One step of the routing state in a Run: a Slot is opened, a Task is
activated, or a participant makes a service call. -/
inductive Step (ok : Bool) : Router → Router → Prop
  | tick {ns : Nat} (r : Router) : ns ≤ uint64Max → Step ok r { r with nowNs := ns }
  | activation (owner : String) (r : Router) : Step ok r (r.note (.activation owner r.nowNs))
  | act {owner : String} {contract : Contract} {r r' : Router} : Act ok owner contract r r' →
      Step ok r r'

abbrev Steps (ok : Bool) : Router → Router → Prop :=
  Relation.ReflTransGen (Step ok)

theorem Steps.invariant {ok : Bool} {I : Router → Prop} (hstep : ∀ a b, I a → Step ok a b → I b)
    {r r' : Router} (h : Steps ok r r') (hr : I r) : I r' := by
  induction h with
  | refl => exact hr
  | tail _ hs ih => exact hstep _ _ ih hs

theorem Acts.steps {ok : Bool} {owner : String} {contract : Contract} {r r' : Router}
    (h : Acts ok owner contract r r') : Steps ok r r' := by
  induction h with
  | refl => exact .refl
  | tail _ hact ih => exact .tail ih (.act hact)

end Router

end SilFormal.Kernel
