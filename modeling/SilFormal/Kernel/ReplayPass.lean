import SilFormal.Kernel.RecordedRun

/-!
# The pass of a Replay participant

What is left of a pass are the selected Messages behind the current one.  In a
Slot the participant publishes those at the front that carry the time of the
Slot.  On a Channel without interceptors each of them reaches the Recording
unchanged.
-/

namespace SilFormal.Kernel

open List

/-- A recorded Message by time and bytes. -/
def RecordedMessage.content (m : RecordedMessage) : Nat × Bytes :=
  (m.publishNs, m.bytes)

namespace Replayer

/-- The Messages still to be replayed. -/
def remaining (r : Replayer) : List RecordedMessage :=
  r.reader.filter r.selects

/-- The Messages replayed in a Slot. -/
def dueAt (r : Replayer) (nowNs : Nat) : List RecordedMessage :=
  r.remaining.takeWhile fun m => m.publishNs == nowNs

theorem skipUnreplayed_remaining (r : Replayer) : r.skipUnreplayed.remaining = r.remaining := by
  have hskip : ∀ l : List RecordedMessage,
      (l.dropWhile fun m => !r.selects m).filter r.selects = l.filter r.selects := by
    intro l
    induction l with
    | nil => rfl
    | cons m rest ih =>
      by_cases hm : r.selects m = true
      · simp [hm]
      · rw [dropWhile_cons_of_pos (by simpa using hm), ih, filter_cons_of_neg hm]
  exact hskip r.reader

theorem served_remaining (r : Replayer) (nowNs : Nat) : (r.served nowNs).remaining =
      r.remaining.dropWhile fun m => m.publishNs == nowNs := by
  have hserved : ∀ l : List RecordedMessage, (l.dropWhile (r.passes nowNs)).filter r.selects =
        (l.filter r.selects).dropWhile fun m => m.publishNs == nowNs := by
    intro l
    induction l with
    | nil => rfl
    | cons m rest ih =>
      by_cases hm : r.selects m = true
      · by_cases hnow : m.publishNs = nowNs
        · simp [passes, hm, hnow, ih]
        · simp [passes, hm, hnow]
      · have hpass : r.passes nowNs m = true := by simp [passes, hm]
        rw [dropWhile_cons_of_pos hpass, ih, filter_cons_of_neg hm]
  exact hserved r.reader

/-- The current Message is the first of those still to be replayed. -/
theorem nextPublishNs_eq {r : Replayer} (hcurrent : ∀ m ∈ r.reader.head?, r.selects m = true) :
    r.nextPublishNs = (r.remaining.head?.map RecordedMessage.publishNs).getD uint64Max := by
  cases hreader : r.reader with
  | nil => simp [nextPublishNs, remaining, hreader]
  | cons m rest =>
    have hm := hcurrent m (by simp [hreader])
    simp [nextPublishNs, remaining, hreader, hm]

end Replayer

namespace Router

/-! ## Publishing on a Channel without interceptors -/

theorem recordedContent_append {r r' : Router} {new : List Record}
    (h : r'.recording = r.recording ++ new) (c : String) :
    r'.recordedContent c = r.recordedContent c ++
      (new.filter fun record => record.channel = c).map fun record =>
        (record.publishNs, record.bytes) := by
  rw [recordedContent, recorded, h, filter_append, map_append]
  rfl

theorem publish_plain {r : Router} (hopen : r.Open) {channel : String} {st : ChannelState}
    (hst : r.channels channel = some st) (hsteps : st.plan.steps = [])
    (hnow : r.nowNs < st.plan.durationNs) {data : Bytes} (hsize : data.length = st.byteSize)
    (owner : String) :
    (r.publish owner channel data).2 = none ∧
      ∀ c, (r.publish owner channel data).1.recordedContent c =
        r.recordedContent c ++ if c = channel then [(r.nowNs, data)] else [] := by
  have happly := InterceptorPlan.apply_plain hsteps hnow data
  rcases hpush : pushAll owner channel ⟨r.nowNs, r.globalSeq, data⟩ st.subscribers
      (r.stamp channel st (st.plan.withSteps []) data
        (some ⟨channel, r.nowNs, st.nextSeq, data⟩)) with ⟨r', error⟩
  rw [publish_of_delivered owner hst hsize happly, hpush]
  refine ⟨(pushAll_open hpush hopen.capacity).1, fun c => ?_⟩
  rw [recordedContent_append (pushAll_frame hpush).2.2.2]
  by_cases hc : c = channel
  · simp [hc]
  · have hc' : ¬ channel = c := fun heq => hc heq.symm
    simp [hc, hc']

end Router

/-- The Channels of a Replay participant as its publishes need them: without
interceptors, and with Messages of the right size. -/
structure Replayer.Fitting (base : String → Option ChannelState) (r : Replayer)
    (messages : List RecordedMessage) : Prop where
  plain : ∀ c ∈ r.channels, ∀ c₀, base c = some c₀ →
    c₀.plan.steps = [] ∧ c₀.plan.durationNs = r.durationNs
  sized : ∀ m ∈ messages, r.selects m = true →
    ∃ c₀, base m.channel = some c₀ ∧ m.bytes.length = c₀.byteSize

/-- The loop of `publish_due` succeeds and records what is due. -/
theorem Replayer.publishFrom_records {base : String → Option ChannelState} {r : Replayer}
    {messages : List RecordedMessage} (hfit : r.Fitting base messages) {router : Router}
    (hopen : router.Open) (hdesign : router.Designed base) (hnow : router.nowNs < r.durationNs) :
    (r.publishFrom router.nowNs messages router).2.2 = none ∧
      ∀ c, (r.publishFrom router.nowNs messages router).2.1.recordedContent c =
        router.recordedContent c ++
          (((messages.filter r.selects).takeWhile fun m =>
            m.publishNs == router.nowNs).filter fun m => m.channel = c).map
            RecordedMessage.content := by
  induction messages generalizing router with
  | nil => exact ⟨rfl, fun c => by simp [publishFrom]⟩
  | cons m rest ih =>
    have hrest : r.Fitting base rest :=
      ⟨hfit.plain, fun m' hm' => hfit.sized m' (mem_cons_of_mem _ hm')⟩
    rw [publishFrom]
    by_cases hsel : r.selects m = true
    · rw [if_pos hsel, filter_cons_of_pos hsel]
      by_cases hm : m.publishNs = router.nowNs
      · rw [if_pos hm, takeWhile_cons_of_pos (by simpa using hm)]
        obtain ⟨c₀, hc₀, hsize⟩ := hfit.sized m (by simp) hsel
        obtain ⟨hsteps, hduration⟩ :=
          hfit.plain m.channel (selects_iff.mp hsel).1 c₀ hc₀
        obtain ⟨st, hst, hdes⟩ : ∃ st, router.channels m.channel = some st ∧ c₀.SameDesign st := by
          rcases hdesign m.channel with ⟨hnone, _⟩ | ⟨c₁, st, hc₁, hst, hdes⟩
          · rw [hnone] at hc₀
            cases hc₀
          · rw [hc₁, Option.some.injEq] at hc₀
            exact ⟨st, hst, hc₀ ▸ hdes⟩
        obtain ⟨hnone, hrecorded⟩ := Router.publish_plain hopen hst
          (hdes.plain hsteps) (by rw [hdes.duration, hduration]; exact hnow)
          (hsize.trans hdes.byteSize.symm) r.name
        rcases hpub : router.publish r.name m.channel m.bytes with ⟨router', error⟩
        rw [hpub] at hnone hrecorded
        obtain rfl : error = none := hnone
        have hspec := Router.publish_spec hpub
        have hnow' := hspec.nowNs_eq
        obtain ⟨hok, hrecorded'⟩ := ih hrest (hspec.keeps_open hopen)
          (hdesign.published hspec) (hnow' ▸ hnow)
        rw [hnow'] at hok hrecorded'
        refine ⟨hok, fun c => ?_⟩
        dsimp only
        rw [hrecorded' c, hrecorded c, append_assoc, filter_cons]
        congr 1
        by_cases hc : c = m.channel
        · simp [hc, RecordedMessage.content, hm]
        · have hc' : ¬ m.channel = c := fun heq => hc heq.symm
          simp [hc, hc']
      · rw [if_neg hm, takeWhile_cons_of_neg (by simpa using hm)]
        exact ⟨rfl, fun c => by simp⟩
    · rw [if_neg hsel, filter_cons_of_neg hsel]
      exact ih hrest hopen hdesign hnow

end SilFormal.Kernel
