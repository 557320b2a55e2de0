import SilFormal.Can.EventLoop

/-!
# When frames start and end

Frames follow each other with an intermission between them, whatever the calls
are.  In the event loop of the adapter the next event of the bus is moreover
always ahead: an event takes care of all that is due at its instant.
-/

namespace SilFormal.Can

open Fallible List

namespace Frame

/-- The identifier on the wire. -/
def identifier (f : Frame) : Nat :=
  u32 f.transfer.operation 8

/-- The data field. -/
def data (f : Frame) : Bytes :=
  f.transfer.operation.drop 16

end Frame

namespace Bus

variable {b b' : Bus} {now : Int} {requests : Terminal → Option Request}

/-- The clocks of the bus that the next event is the earliest of. -/
theorem le_nextEvent_iff {t : Int} :
    (∀ due ∈ b.nextEvent, t ≤ due) ↔ (∀ done, b.onWire = some done → t ≤ done.ends) ∧
        (b.onWire = none → b.hasPending = true → t ≤ b.idleFrom) ∧
        ∀ due, b.formatErrorsDue = some due → t ≤ due := by
  simp only [nextEvent]
  cases hwire : b.onWire with
  | some done =>
    cases hdue : b.formatErrorsDue with
    | none => simp
    | some due => simp
  | none =>
    cases hpending : b.hasPending with
    | false =>
      cases hdue : b.formatErrorsDue with
      | none => simp
      | some due => simp
    | true =>
      cases hdue : b.formatErrorsDue with
      | none => simp
      | some due => simp

/-- What is due when an event is. -/
theorem nextEvent_cases (h : b.nextEvent = some now) :
    b.isCompletion now = true ∨ b.formatErrorsDue = some now ∨
      b.onWire = none ∧ b.hasPending = true ∧ b.idleFrom = now := by
  simp only [nextEvent] at h
  cases hwire : b.onWire with
  | some done =>
    simp only [isCompletion, hwire] at h ⊢
    cases hdue : b.formatErrorsDue with
    | none => exact .inl (by simpa [hdue] using h)
    | some due =>
      simp only [hdue] at h
      rcases min_choice done.ends due with hmin | hmin
      · exact .inl (by simpa [hmin] using h)
      · exact .inr (.inl (by rw [← h, hmin]))
  | none =>
    simp only [hwire] at h
    refine .inr ?_
    cases hpending : b.hasPending with
    | false =>
      cases hdue : b.formatErrorsDue with
      | none => simp [hpending, hdue] at h
      | some due => simpa [hpending, hdue] using h
    | true =>
      cases hdue : b.formatErrorsDue with
      | none => exact .inr ⟨rfl, rfl, by simpa [hpending, hdue] using h⟩
      | some due =>
        simp only [hdue, hpending, if_true, Option.some.injEq] at h
        rcases min_choice b.idleFrom due with hmin | hmin
        · exact .inr ⟨rfl, rfl, by rw [← h, hmin]⟩
        · exact .inl (by rw [← h, hmin])

theorem Valid.bitTime_pos (hb : b.Valid) (h : b.bitrate ≠ none) : 0 < b.bitTime := by
  simp only [bitTime]
  cases hrate : b.bitrate with
  | none => exact absurd hrate h
  | some rate =>
    have hpos := Can.bitTime_pos (hb.bitrate rate hrate)
    simp only
    omega

/-! ## Frames follow each other -/

/-- The frames so far, and what they leave the wire in. -/
structure Paced (b : Bus) : Prop where
  frame : ∀ f ∈ b.frames, f.start < f.transfer.ends ∧ f.transfer.ends ≤ maxTime ∧
    f.transfer.ends = f.start + frameBits f.identifier f.data * b.bitTime
  apart : b.frames.Pairwise fun f g => f.transfer.ends + intermissionBits * b.bitTime ≤ g.start
  idle : b.onWire = none → ∀ f ∈ b.frames,
    f.transfer.ends + intermissionBits * b.bitTime ≤ b.idleFrom
  busy : ∀ done, b.onWire = some done → ∃ earlier f, b.frames = earlier ++ [f] ∧ f.transfer = done
  rate : b.frames ≠ [] → b.bitrate ≠ none

theorem paced_start {c : Configuration} (h : c.start = .ok b) : b.Paced := by
  obtain ⟨rules, _, _, rfl⟩ := start_spec h
  exact {
    frame := by simp
    apart := List.Pairwise.nil
    idle := by simp
    busy := by simp
    rate := by simp }

theorem Paced.committed {s : Bus × Requests} (hb : b.Paced) (h : Committed now b s b') :
    b'.Paced := by
  have hframes : b'.frames = b.frames := by rw [h.design_eq]
  have hidle : b'.idleFrom = b.idleFrom := by rw [h.design_eq]
  have hrate : b.frames ≠ [] → b'.bitrate = b.bitrate := by
    intro hne
    rcases h.bitrate_cases with hsame | ⟨hnone, _⟩
    · exact hsame
    · exact absurd hnone (hb.rate hne)
  by_cases hnil : b.frames = []
  · exact {
      frame := by simp [hframes, hnil]
      apart := by simp [hframes, hnil]
      idle := by simp [hframes, hnil]
      busy := by
        rw [h.onWire_eq, hframes]
        exact hb.busy
      rate := by simp [hframes, hnil] }
  · have htime : b'.bitTime = b.bitTime := by simp only [bitTime, hrate hnil]
    exact {
      frame := by
        rw [hframes, htime]
        exact hb.frame
      apart := by
        rw [hframes, htime]
        exact hb.apart
      idle := by
        rw [h.onWire_eq, hframes, htime, hidle]
        exact hb.idle
      busy := by
        rw [h.onWire_eq, hframes]
        exact hb.busy
      rate := fun hne => by
        rw [hrate hnil]
        exact hb.rate hnil }

theorem Arbitrated.frame_spec {chosen : Request} (h : Arbitrated now b chosen requests b')
    (hb : b.Valid) :
    (b.transmission now chosen requests).identifier = chosen.id ∧
      (b.transmission now chosen requests).transfer.ends =
        now + frameBits chosen.id (b.transmission now chosen requests).data * b.bitTime := by
  obtain ⟨n, _, hrequest⟩ := h.exists_request
  have hhead := (h.operation_eq hrequest).1
  have hsound : chosen.Sound :=
    hb.sound n chosen (.inl (by rw [Node.pending_eq_cons hhead]; exact mem_cons_self))
  constructor
  · rw [Frame.identifier, transmission_operation, hsound.id_eq]
  · rw [transmission_ends, Frame.data, transmission_operation, frameEnd]

theorem Paced.arbitrated {chosen : Request} (hp : b.Paced) (h : Arbitrated now b chosen requests b')
    (hb : b.Valid) (hwire : b.onWire = none) (hpending : b.hasPending = true)
    (hidle : b.idleFrom ≤ now) : b'.Paced := by
  have hframes : b'.frames = b.frames ++ [b.transmission now chosen requests] := by
    rw [h.bus_eq]
  have htime : b'.bitTime = b.bitTime := by
    rw [h.bus_eq]
    rfl
  have hbitrate : b'.bitrate = b.bitrate := by rw [h.bus_eq]
  have hready := hb.ready (.inl hpending)
  obtain ⟨hid, hends⟩ := h.frame_spec hb
  exact {
    frame := fun f hf => by
      rw [hframes] at hf
      rw [htime]
      rcases mem_append.mp hf with hold | hnew
      · exact hp.frame f hold
      · cases mem_singleton.mp hnew
        have hbits := frameBits_pos chosen.id (b.transmission now chosen requests).data
        have hpos : 0 < (frameBits chosen.id (b.transmission now chosen requests).data : Int) *
            b.bitTime :=
          Int.mul_pos (by omega) (hb.bitTime_pos hready)
        have hle : (b.transmission now chosen requests).transfer.ends ≤ maxTime := by
          rw [transmission_ends]
          exact h.ends_le
        refine ⟨?_, hle, ?_⟩
        · show now < _
          omega
        · rw [hends, hid]
          rfl
    apart := by
      rw [hframes, htime, pairwise_append]
      refine ⟨hp.apart, pairwise_singleton _ _, fun f hf g hg => ?_⟩
      cases mem_singleton.mp hg
      exact (hp.idle hwire f hf).trans hidle
    idle := fun hnone => by
      rw [h.onWire_eq] at hnone
      cases hnone
    busy := fun done hdone => by
      rw [h.onWire_eq] at hdone
      cases hdone
      exact ⟨b.frames, _, hframes, rfl⟩
    rate := fun _ => hbitrate ▸ hready }

theorem Paced.completedAt {done : Transfer} (hp : b.Paced) (hb : b.Valid)
    (h : CompletedAt now b done b') : b'.Paced := by
  have hframes : b'.frames = b.frames := by rw [h.bus_eq]
  have hidle : b'.idleFrom = now + intermissionBits * b.bitTime := by rw [h.bus_eq]
  have htime : b'.bitTime = b.bitTime := by
    rw [h.bus_eq]
    rfl
  have hbitrate : b'.bitrate = b.bitrate := by rw [h.bus_eq]
  exact {
    frame := by
      rw [hframes, htime]
      exact hp.frame
    apart := by
      rw [hframes, htime]
      exact hp.apart
    idle := fun _ f hf => by
      rw [hframes] at hf
      rw [htime]
      -- The frame that ends is the last one, and the others ended before it started.
      obtain ⟨earlier, last, hlast, rfl⟩ := hp.busy done h.onWire_eq
      have hends := h.ends_eq
      have hapart := hp.apart
      rw [hlast, pairwise_append] at hapart
      rw [hlast] at hf
      rcases mem_append.mp hf with hold | hnew
      · have hbefore := hapart.2.2 f hold last (by simp)
        have horder := (hp.frame last (by simp [hlast])).1
        have hpos := hb.bitTime_pos (hb.ready (.inr (by simp [h.onWire_eq])))
        have hgap : 0 ≤ (intermissionBits : Int) * b.bitTime :=
          Int.mul_nonneg (by omega) (by omega)
        omega
      · cases mem_singleton.mp hnew
        omega
    busy := by simp [h.onWire_after]
    rate := by
      rw [hframes, hbitrate]
      exact hp.rate }

theorem Paced.reportDue (hp : b.Paced) (now : Int) : (b.reportDue now).Paced := by
  simp only [Bus.reportDue]
  split
  · exact hp
  · exact ⟨hp.frame, hp.apart, hp.idle, hp.busy, hp.rate⟩

theorem Paced.call {call : Call} (hp : b.Paced) (hb : b.Valid) (h : b.call call = .ok b') :
    b'.Paced := by
  cases call with
  | receive inputs now =>
    obtain ⟨s, next, hcommitted, ⟨_, _, hstarts, harbitrated⟩ | ⟨_, rfl⟩⟩ := receive_spec h
    · exact (hp.committed hcommitted).arbitrated harbitrated (hcommitted.valid hb) hstarts.1
        hstarts.2.1 hstarts.2.2
    · exact hp.committed hcommitted
  | tick now =>
    obtain ⟨ended, rfl, ⟨done, hcompleted⟩ | ⟨_, rfl⟩⟩ := tick_spec h
    · exact (hp.completedAt hb hcompleted).reportDue now
    · exact hp.reportDue now
  | clearOutputs =>
    cases h
    exact ⟨hp.frame, hp.apart, hp.idle, hp.busy, hp.rate⟩

theorem Reaches.paced {c : Configuration} {calls : List Call} (h : Reaches c calls b) :
    b.Paced := by
  obtain ⟨start, hstart, hrun⟩ := h
  exact (foldlM_invariant (I := fun b => b.Valid ∧ b.Paced)
    (fun _ _ _ _ hs hcall => ⟨hs.1.call hcall, hs.2.call hs.1 hcall⟩) hrun
    ⟨valid_start hstart, paced_start hstart⟩).2

/-! ## The next event is ahead -/

/-- A tick takes care of what is due at its instant. -/
theorem lt_after_tick (h : b.tick now = .ok b') :
    (∀ done, b'.onWire = some done → now < done.ends) ∧
      ∀ due, b'.formatErrorsDue = some due → now < due := by
  have hdue := (tick_eq_ok_iff.mp h).1
  obtain ⟨ended, rfl, hended⟩ := tick_spec h
  obtain ⟨hwire, _, hreport⟩ := le_nextEvent_iff.mp (show ∀ due ∈ b.nextEvent, now ≤ due by
    rw [hdue]
    rintro due ⟨⟩
    exact le_refl _)
  have hends : (∀ done, ended.onWire = some done → now < done.ends) ∧
      ended.formatErrorsDue = b.formatErrorsDue := by
    rcases hended with ⟨done, hcompleted⟩ | ⟨hcompletion, rfl⟩
    · exact ⟨by simp [hcompleted.onWire_after], by rw [hcompleted.bus_eq]⟩
    · refine ⟨fun done hdone => ?_, rfl⟩
      have hle := hwire done hdone
      have hne : done.ends ≠ now := by
        simpa [isCompletion, hdone] using hcompletion
      omega
  simp only [Bus.reportDue]
  split
  · rename_i hother
    refine ⟨hends.1, fun due hsome => ?_⟩
    have hle := hreport due (hends.2 ▸ hsome)
    have hne : due ≠ now := by
      rintro rfl
      exact hother hsome
    omega
  · exact ⟨hends.1, by simp⟩

/-- Receiving leaves nothing due at its instant. -/
theorem Valid.lt_after_receive {inputs : Terminal → Bytes} (hb : b.Valid)
    (hwire : ∀ done, b.onWire = some done → now < done.ends)
    (hreport : ∀ due, b.formatErrorsDue = some due → now < due)
    (h : b.receive inputs now = .ok b') :
    ∀ due ∈ b'.nextEvent, now + 1 ≤ due := by
  obtain ⟨s, next, hcommitted, hnext⟩ := receive_spec h
  have hdue : ∀ due, next.formatErrorsDue = some due → now + 1 ≤ due := by
    intro due hsome
    rw [hcommitted.design_eq] at hsome
    rcases hcommitted.accepted.due_cases with ⟨hsame, _⟩ | ⟨hnew, _⟩
    · exact hreport due (hsame ▸ hsome)
    · rw [hnew] at hsome
      cases hsome
      exact le_refl _
  rw [le_nextEvent_iff]
  rcases hnext with ⟨chosen, requests, ⟨_, hpending, _⟩, harbitrated⟩ | ⟨hstays, rfl⟩
  · have hvalid := hcommitted.valid hb
    refine ⟨fun done hdone => ?_, fun hnone => ?_, fun due hsome => ?_⟩
    · rw [harbitrated.onWire_eq] at hdone
      cases hdone
      have hbits := frameBits_pos chosen.id (chosen.operation.drop 16)
      have hpos : 0 < (frameBits chosen.id (chosen.operation.drop 16) : Int) * next.bitTime :=
        Int.mul_pos (by omega) (hvalid.bitTime_pos (hvalid.ready (.inl hpending)))
      rw [transmission_ends, frameEnd]
      omega
    · rw [harbitrated.onWire_eq] at hnone
      cases hnone
    · rw [harbitrated.bus_eq] at hsome
      exact hdue due hsome
  · refine ⟨fun done hdone => ?_, fun hnone hpending => ?_, hdue⟩
    · exact hwire done (hcommitted.onWire_eq ▸ hdone)
    · have hahead : ¬ b'.idleFrom ≤ now := fun hle => hstays ⟨hnone, hpending, hle⟩
      omega

end Bus

open Bus

/-- How far the clocks of the bus are ahead of the instant, by phase. -/
def Ahead (phase : Phase) (now : Int) (b : Bus) : Prop :=
  match phase with
  | .waiting => ∀ due ∈ b.nextEvent, now ≤ due
  | .ticked => (∀ done, b.onWire = some done → now < done.ends) ∧
      ∀ due, b.formatErrorsDue = some due → now < due
  | .received => ∀ due ∈ b.nextEvent, now < due

theorem EventLoop.ahead {c : Configuration} {phase : Phase} {now : Int} {b : Bus}
    (h : EventLoop c phase now b) : Ahead phase now b := by
  induction h with
  | start hstart =>
    simp only [Ahead, nextEvent_start hstart]
    simp
  | step _ _ hdue => exact hdue
  | tick _ _ htick => exact lt_after_tick htick
  | @skip b now _ hnotDue ih =>
    have hlater : ∀ due ∈ b.nextEvent, now + 1 ≤ due := by
      intro due hdue
      have hle := ih due hdue
      rcases Int.lt_or_eq_of_le hle with hlt | heq
      · exact hlt
      · exact absurd (heq ▸ hdue) hnotDue
    obtain ⟨hwire, _, hreport⟩ := le_nextEvent_iff.mp hlater
    exact ⟨hwire, hreport⟩
  | receive h hreceive ih => exact h.valid.lt_after_receive ih.1 ih.2 hreceive
  | clear _ ih => exact fun due hdue => Int.le_of_lt (ih due hdue)

/-- The timing of the bus in the event loop: frames have their length and leave
an intermission between them, an event leaves nothing due at its instant, and
receiving starts a frame of the lowest identifier as soon as one can start. -/
theorem EventLoop.bus_timing {c : Configuration} {phase : Phase} {now : Int} {b : Bus}
    (h : EventLoop c phase now b) :
    (∀ f ∈ b.frames, f.start < f.transfer.ends ∧ f.transfer.ends ≤ maxTime ∧
        f.transfer.ends = f.start + frameBits f.identifier f.data * b.bitTime) ∧
      (b.frames.Pairwise fun f g => f.transfer.ends + intermissionBits * b.bitTime ≤ g.start) ∧
      (b.frames ≠ [] → 0 < b.bitTime) ∧
      (phase = .received → ∀ due ∈ b.nextEvent, now < due) ∧
      (phase = .ticked → ∀ inputs b', b.receive inputs now = .ok b' →
        ∃ staged, b.commit inputs now = .ok staged ∧
          (staged.onWire = none ∧ staged.hasPending = true ∧ staged.idleFrom ≤ now →
            ∃ f, b'.frames = b.frames ++ [f] ∧ b'.onWire = some f.transfer ∧ f.start = now ∧
              IsLeast {id | ∃ n request, staged.isActive n = true ∧
                (staged.nodes n).head? = some request ∧ request.id = id} f.identifier) ∧
          (¬ (staged.onWire = none ∧ staged.hasPending = true ∧ staged.idleFrom ≤ now) →
            b'.frames = b.frames)) := by
  obtain ⟨calls, hreaches⟩ := h.reaches
  have hpaced := hreaches.paced
  refine ⟨hpaced.frame, hpaced.apart, fun hne => h.valid.bitTime_pos (hpaced.rate hne),
    fun hphase => ?_, fun hphase inputs b' hreceive => ?_⟩
  · subst hphase
    exact h.ahead
  · obtain ⟨_, _, staged, hcommit, hstaged⟩ := receive_eq_ok_iff.mp hreceive
    obtain ⟨s, hcommitted⟩ := commit_spec hcommit
    have hframes : staged.frames = b.frames := by rw [hcommitted.design_eq]
    refine ⟨staged, hcommit, fun hstarts => ?_, fun hstays => ?_⟩
    · rcases hstaged with ⟨_, _, _, harbitrate⟩ | ⟨hstays, _⟩
      · obtain ⟨chosen, requests, harbitrated⟩ := arbitrate_eq_ok_iff.mp harbitrate
        have hid := (harbitrated.frame_spec (hcommitted.valid h.valid)).1
        refine ⟨staged.transmission now chosen requests, ?_, harbitrated.onWire_eq, rfl, ?_⟩
        · rw [harbitrated.bus_eq, ← hframes]
        · rw [hid]
          constructor
          · obtain ⟨n, hactive, hhead⟩ := exists_head_of_winner harbitrated.winner_eq
            exact ⟨n, chosen, hactive, hhead, rfl⟩
          · rintro id ⟨n, request, hactive, hhead, rfl⟩
            exact winner_id_le harbitrated.winner_eq hactive hhead
      · exact absurd hstarts hstays
    · rcases hstaged with ⟨hwire, hpending, hidle, _⟩ | ⟨_, rfl⟩
      · exact absurd ⟨hwire, hpending, hidle⟩ hstays
      · exact hframes

/-- The event that the bus is due for. -/
theorem EventLoop.event {c : Configuration} {now later : Int} {b ticked b' : Bus}
    {inputs : Terminal → Bytes} (h : EventLoop c .waiting now b) (hlater : now ≤ later)
    (htick : b.tick later = .ok ticked) (hreceive : ticked.receive inputs later = .ok b') :
    EventLoop c .waiting later b'.clearOutputs := by
  have hdue := (tick_eq_ok_iff.mp htick).1
  refine (((h.step hlater ?_).tick hdue htick).receive hreceive).clear
  simp [hdue]

/-- The first frame of `faultyPair` fails after 47 bits, and is sent again after
an intermission of three bits. -/
theorem EventLoop.bus_timing_retry : ∃ b, EventLoop faultyPair .waiting 400000 b ∧
      b.frames.map (fun f => (f.start, f.transfer.ends)) = [(0, 376000), (400000, 776000)] ∧
      (∀ f ∈ b.frames, f.transfer.ends = f.start + frameBits f.identifier f.data * b.bitTime) ∧
      b.frames.Pairwise fun f g => f.transfer.ends + intermissionBits * b.bitTime ≤ g.start := by
  have hrun : reachesWith faultyPair [.receive faultyInputs 0, .clearOutputs, .tick 376000,
      .receive (fun _ => []) 376000, .clearOutputs, .tick 400000, .receive (fun _ => []) 400000,
      .clearOutputs] (fun b => b.frames.map (fun f => (f.start, f.transfer.ends)) ==
        [(0, 376000), (400000, 776000)]) = true := by
    decide +kernel
  obtain ⟨_, ⟨start, hstart, hcalls⟩, hframes⟩ := exists_reaches hrun
  simp only [run, foldlM_cons, bind_eq_ok] at hcalls
  obtain ⟨b₁, hfirst, _, ⟨⟩, _, htick, b₂, hreceive, _, ⟨⟩, _, htick', b₃, hreceive', _, ⟨⟩, ⟨⟩⟩ :=
    hcalls
  have hloop : EventLoop faultyPair .waiting 400000 b₃.clearOutputs :=
    ((EventLoop.first hstart le_rfl hfirst).event (by decide) htick hreceive).event (by decide)
      htick' hreceive'
  exact ⟨_, hloop, by simpa using hframes, fun f hf => (hloop.bus_timing.1 f hf).2.2,
    hloop.bus_timing.2.1⟩

end SilFormal.Can
