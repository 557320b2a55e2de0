import SilFormal.Coupling.Timeline

/-!
# When the listed activations show the pattern of a route

The plan of a route stops one common period of the two FMUs after the first
Message can be visible, where the activations are said to repeat.  On a route
that refuses nothing before an activation the first activation that can take a
Message decides: the Messages published before time 0 that the later activations
at its phase would have had are missing from it.
-/

namespace SilFormal.Coupling

/-- How long ago the input of an activation at `drain` was published. -/
def Held.age (drain : Nat) : Held → Option Nat
  | .start => none
  | .message publishedNs _ => some (drain - publishedNs)

namespace Route

variable (r : Route) {n t m : Nat}

def commonPeriod : Nat :=
  Nat.lcm r.publisherPeriod r.subscriberPeriod

/-- Every activation from the end of the list on takes as many Messages as the
one a common period before, and steps on an input of the same age. -/
def Repeats : Prop :=
  ∀ d, d < r.duration → r.subscriberPeriod ∣ d → r.latency + r.commonPeriod ≤ d →
    (r.activationAt (d / r.subscriberPeriod)).delivered =
        (r.activationAt ((d - r.commonPeriod) / r.subscriberPeriod)).delivered ∧
      (r.activationAt (d / r.subscriberPeriod)).input.age d =
        (r.activationAt ((d - r.commonPeriod) / r.subscriberPeriod)).input.age
          (d - r.commonPeriod)

/-- The number of the first activation at or after the Latency. -/
def firstActivation : Nat :=
  (r.latency + (r.subscriberPeriod - 1)) / r.subscriberPeriod

/-- The first activation that can take a Message does not come round again in the
Run, or it takes one, and no publication before time 0 would have been due at it. -/
def PatternShown : Prop :=
  r.duration ≤ r.firstActivation * r.subscriberPeriod + r.commonPeriod ∨
    (0 < r.latency ∨ r.publisherFirst = true) ∧ r.subscriberPeriod + r.latency ≤
        r.firstActivation * r.subscriberPeriod + r.publisherPeriod

variable {r}

theorem firstActivation_le_iff : r.firstActivation ≤ n ↔ r.latency ≤ n * r.subscriberPeriod := by
  have hpos := r.subscriberPeriod_pos
  rw [firstActivation, ← Nat.lt_succ_iff, Nat.div_lt_iff_lt_mul hpos, Nat.succ_mul]
  omega

theorem latency_le_firstActivation : r.latency ≤ r.firstActivation * r.subscriberPeriod :=
  firstActivation_le_iff.mp (Nat.le_refl _)

theorem commonPeriod_pos : 0 < r.commonPeriod :=
  Nat.lcm_pos r.publisherPeriod_pos r.subscriberPeriod_pos

/-- How often the publisher publishes in a common period. -/
theorem exists_publications : ∃ m, 0 < m ∧ r.commonPeriod = m * r.publisherPeriod := by
  obtain ⟨m, hm⟩ := Nat.dvd_lcm_left r.publisherPeriod r.subscriberPeriod
  refine ⟨m, ?_, by rw [commonPeriod, hm, Nat.mul_comm]⟩
  have hpos := r.commonPeriod_pos
  rw [commonPeriod, hm] at hpos
  exact Nat.pos_of_mul_pos_left hpos

/-- How often the subscriber is activated in a common period. -/
theorem exists_activations : ∃ s, r.commonPeriod = (s + 1) * r.subscriberPeriod := by
  obtain ⟨s, hs⟩ := Nat.dvd_lcm_right r.publisherPeriod r.subscriberPeriod
  have hpos := r.commonPeriod_pos
  rw [commonPeriod, hs] at hpos
  obtain ⟨k, rfl⟩ := Nat.exists_eq_succ_of_ne_zero (Nat.pos_of_mul_pos_left hpos).ne'
  exact ⟨k, by rw [commonPeriod, hs, Nat.mul_comm]⟩

/-! ## The counters one common period later -/

theorem published_add (t m : Nat) :
    r.published (t + m * r.publisherPeriod) = r.published t + m := by
  have hpos := r.publisherPeriod_pos
  unfold published
  split_ifs
  · rw [Nat.add_mul_div_right _ _ hpos]
    omega
  · rw [Nat.add_right_comm, Nat.add_mul_div_right _ _ hpos]

theorem reached_add (h : r.latency ≤ t) (m : Nat) :
    r.reached (t + m * r.publisherPeriod) = r.reached t + m := by
  rw [reached, reached, if_pos h, if_pos (h.trans (Nat.le_add_right _ _)),
    Nat.sub_add_comm h, Nat.add_mul_div_right _ _ r.publisherPeriod_pos]
  omega

theorem visible_add (h : r.latency ≤ t) (m : Nat) :
    r.visible (t + m * r.publisherPeriod) = r.visible t + m := by
  rw [visible, visible, published_add, reached_add h, Nat.add_min_add_right]

theorem visible_eq_zero (h : t < r.latency) : r.visible t = 0 := by
  rw [visible, reached, if_neg (Nat.not_le.mpr h), Nat.min_zero]

theorem visible_pos_iff (h : r.latency ≤ t) :
    0 < r.visible t ↔ 0 < t ∨ r.publisherFirst = true := by
  rw [lt_visible_iff, lt_published_iff, before_iff]
  constructor
  · rintro ⟨hlt | ⟨-, hfirst⟩, -⟩
    · exact .inl (by omega)
    · exact .inr hfirst
  · intro hor
    refine ⟨?_, by omega⟩
    rcases hor with hpos | hfirst
    · exact .inl (by omega)
    · rcases Nat.eq_zero_or_pos t with rfl | hpos
      · exact .inr ⟨Nat.zero_mul _, hfirst⟩
      · exact .inl (by omega)

/-- Where the order in a Slot does not hold a Message back, the visible ones are
those that are one Latency old. -/
theorem visible_eq_reached (h : 0 < r.latency ∨ r.publisherFirst = true) (t : Nat) :
    r.visible t = r.reached t := by
  refine Nat.min_eq_right (le_of_forall_lt fun k hk => ?_)
  rw [lt_reached_iff] at hk
  rw [lt_published_iff, before_iff]
  rcases h with hpos | hfirst
  · exact .inl (by omega)
  · rcases Nat.lt_or_ge (k * r.publisherPeriod) t with hlt | hge
    · exact .inl hlt
    · exact .inr ⟨by omega, hfirst⟩

/-! ## Two activations one common period apart -/

/-- The inputs are of the same age unless the earlier one is the start value. -/
theorem age_add_iff (hm : 0 < m) : (r.heldAfter (r.visible (n * r.subscriberPeriod) + m)).age
        (n * r.subscriberPeriod + m * r.publisherPeriod) =
      (r.heldAfter (r.visible (n * r.subscriberPeriod))).age (n * r.subscriberPeriod) ↔
        0 < r.visible (n * r.subscriberPeriod) := by
  cases hv : r.visible (n * r.subscriberPeriod) with
  | zero =>
    obtain ⟨k, rfl⟩ := Nat.exists_eq_succ_of_ne_zero hm.ne'
    simp [heldAfter, Held.age]
  | succ v =>
    have hlt : v < r.visible (n * r.subscriberPeriod) := by omega
    have hsum : v + 1 + m = v + m + 1 := by omega
    simp only [hsum, heldAfter, Held.age, Nat.add_mul, Option.some.injEq]
    omega

/-- The counts agree behind the first activation that can take a Message. -/
theorem delivered_add_of_later {s : Nat} (hs : r.commonPeriod = (s + 1) * r.subscriberPeriod)
    (hm : r.commonPeriod = m * r.publisherPeriod) (hn : r.latency ≤ n * r.subscriberPeriod) :
    r.visible ((n + 1) * r.subscriberPeriod + r.commonPeriod) - r.takenBefore (n + 1 + (s + 1)) =
      r.visible ((n + 1) * r.subscriberPeriod) - r.takenBefore (n + 1) := by
  have hnext : r.latency ≤ (n + 1) * r.subscriberPeriod := hn.trans (r.period_le_of_succ n)
  have htaken : r.takenBefore (n + 1 + (s + 1)) =
      r.visible (n * r.subscriberPeriod + m * r.publisherPeriod) := by
    rw [← hm, hs, ← Nat.add_mul]
    rw [show n + 1 + (s + 1) = n + (s + 1) + 1 by omega]
    rfl
  rw [htaken, hm, visible_add hnext, visible_add hn, Nat.add_sub_add_right]
  rfl

/-- The counts at the first activation that can take a Message. -/
theorem delivered_add_first_iff {s : Nat} (hs : r.commonPeriod = (s + 1) * r.subscriberPeriod)
    (hm : 0 < m) (hperiod : r.commonPeriod = m * r.publisherPeriod)
    (horder : 0 < r.latency ∨ r.publisherFirst = true) (hn : r.latency ≤ n * r.subscriberPeriod)
    (hfirst : n * r.subscriberPeriod < r.latency + r.subscriberPeriod) :
    r.visible (n * r.subscriberPeriod + r.commonPeriod) - r.takenBefore (n + (s + 1)) =
        r.visible (n * r.subscriberPeriod) - r.takenBefore n ↔
      r.subscriberPeriod + r.latency ≤ n * r.subscriberPeriod + r.publisherPeriod := by
  have hbefore : r.takenBefore n = 0 := by
    cases n with
    | zero => rfl
    | succ n =>
      rw [Nat.succ_mul] at hfirst
      exact visible_eq_zero (by omega)
  have hlast : r.takenBefore (n + (s + 1)) = r.reached ((n + s) * r.subscriberPeriod) :=
    visible_eq_reached horder _
  have hsum : (n + s) * r.subscriberPeriod + r.subscriberPeriod =
      n * r.subscriberPeriod + m * r.publisherPeriod := by
    rw [← hperiod, hs]
    ring
  -- The last activation of the period before has taken just the `m` publications
  -- of one common period.
  have hcount : r.visible (n * r.subscriberPeriod) + m - r.reached ((n + s) * r.subscriberPeriod) =
      r.visible (n * r.subscriberPeriod) ↔ r.reached ((n + s) * r.subscriberPeriod) = m := by
    have hbound : r.reached ((n + s) * r.subscriberPeriod) ≤
        r.visible (n * r.subscriberPeriod) + m := by
      rw [← visible_eq_reached horder, ← visible_add hn]
      exact visible_mono (by omega)
    omega
  have hupper : r.reached ((n + s) * r.subscriberPeriod) ≤ m := by
    refine le_of_forall_lt fun k hk => ?_
    rw [lt_reached_iff] at hk
    exact Nat.lt_of_mul_lt_mul_right (a := r.publisherPeriod) (by omega)
  obtain ⟨last, rfl⟩ := Nat.exists_eq_succ_of_ne_zero hm.ne'
  have hlower : r.reached ((n + s) * r.subscriberPeriod) = last + 1 ↔
      last * r.publisherPeriod + r.latency ≤ (n + s) * r.subscriberPeriod := by
    rw [← lt_reached_iff]
    omega
  rw [hbefore, hlast, hperiod, visible_add hn, Nat.sub_zero, hcount]
  rw [Nat.succ_mul] at hsum
  omega

/-- `Repeats` by the numbers of the activations, on a route with room. -/
theorem repeats_iff_visible (hroomy : r.Roomy) {s : Nat}
    (hs : r.commonPeriod = (s + 1) * r.subscriberPeriod) (hm : 0 < m)
    (hperiod : r.commonPeriod = m * r.publisherPeriod) :
    r.Repeats ↔ ∀ n, r.latency ≤ n * r.subscriberPeriod →
      n * r.subscriberPeriod + r.commonPeriod < r.duration →
        r.visible (n * r.subscriberPeriod + r.commonPeriod) - r.takenBefore (n + (s + 1)) =
            r.visible (n * r.subscriberPeriod) - r.takenBefore n ∧
          0 < r.visible (n * r.subscriberPeriod) := by
  have hpos := r.subscriberPeriod_pos
  have hstep : ∀ n, r.latency ≤ n * r.subscriberPeriod →
      n * r.subscriberPeriod + r.commonPeriod < r.duration →
      (((r.activationAt (n + (s + 1))).delivered = (r.activationAt n).delivered ∧
          (r.activationAt (n + (s + 1))).input.age (n * r.subscriberPeriod + r.commonPeriod) =
            (r.activationAt n).input.age (n * r.subscriberPeriod)) ↔
        (r.visible (n * r.subscriberPeriod + r.commonPeriod) - r.takenBefore (n + (s + 1)) =
            r.visible (n * r.subscriberPeriod) - r.takenBefore n ∧
          0 < r.visible (n * r.subscriberPeriod))) := by
    intro n hn hlt
    have hlater : (n + (s + 1)) * r.subscriberPeriod = n * r.subscriberPeriod + r.commonPeriod := by
      rw [hs, Nat.add_mul]
    rw [activationAt_eq hroomy (n := n) (by omega), activationAt_eq hroomy (by omega), hlater]
    refine and_congr Iff.rfl ?_
    rw [hperiod, visible_add hn]
    exact age_add_iff hm
  constructor
  · intro h n hn hlt
    have hdvd : r.subscriberPeriod ∣ n * r.subscriberPeriod + r.commonPeriod := by
      rw [hs]
      exact Nat.dvd_add (Nat.dvd_mul_left _ _) (Nat.dvd_mul_left _ _)
    have happly := h _ hlt hdvd (by omega)
    rw [Nat.add_sub_cancel, Nat.mul_div_cancel _ hpos, hs, ← Nat.add_mul,
      Nat.mul_div_cancel _ hpos, Nat.add_mul, ← hs] at happly
    exact (hstep n hn hlt).mp happly
  · rintro h d hlt ⟨k, rfl⟩ hle
    obtain ⟨n, rfl⟩ : ∃ n, k = n + (s + 1) := by
      refine ⟨k - (s + 1), ?_⟩
      have hmul : (s + 1) * r.subscriberPeriod ≤ k * r.subscriberPeriod := by
        rw [Nat.mul_comm k]
        omega
      have := Nat.le_of_mul_le_mul_right hmul hpos
      omega
    have hd : r.subscriberPeriod * (n + (s + 1)) = n * r.subscriberPeriod + r.commonPeriod := by
      rw [hs, ← Nat.add_mul, Nat.mul_comm]
    rw [hd] at hlt hle ⊢
    rw [Nat.add_sub_cancel, Nat.mul_div_cancel _ hpos]
    rw [show (n * r.subscriberPeriod + r.commonPeriod) / r.subscriberPeriod = n + (s + 1) by
      rw [hs, ← Nat.add_mul, Nat.mul_div_cancel _ hpos]]
    exact (hstep n (by omega) hlt).mpr (h n (by omega) hlt)

/-- On a route that refuses nothing before an activation, the listed activations
repeat exactly if the first activation that can take a Message shows its pattern. -/
theorem repeats_iff_patternShown (hroomy : r.Roomy) : r.Repeats ↔ r.PatternShown := by
  obtain ⟨s, hs⟩ := r.exists_activations
  obtain ⟨m, hm, hperiod⟩ := r.exists_publications
  rw [repeats_iff_visible hroomy hs hm hperiod]
  have hfirst : r.firstActivation * r.subscriberPeriod < r.latency + r.subscriberPeriod := by
    have hdiv := Nat.div_mul_le_self (r.latency + (r.subscriberPeriod - 1)) r.subscriberPeriod
    have hpos := r.subscriberPeriod_pos
    rw [firstActivation]
    omega
  constructor
  · intro h
    by_cases hshort : r.duration ≤ r.firstActivation * r.subscriberPeriod + r.commonPeriod
    · exact .inl hshort
    obtain ⟨hcount, hpos⟩ := h r.firstActivation latency_le_firstActivation (by omega)
    have horder : 0 < r.latency ∨ r.publisherFirst = true := by
      rcases (visible_pos_iff latency_le_firstActivation).mp hpos with htime | hpublisher
      · refine .inl (Nat.pos_of_ne_zero fun hzero => ?_)
        have hle := firstActivation_le_iff.mpr (show r.latency ≤ 0 * r.subscriberPeriod by omega)
        rw [Nat.le_zero.mp hle] at htime
        omega
      · exact .inr hpublisher
    exact .inr ⟨horder, (delivered_add_first_iff hs hm hperiod horder
      latency_le_firstActivation hfirst).mp hcount⟩
  · intro h n hn hlt
    have hle : r.firstActivation * r.subscriberPeriod ≤ n * r.subscriberPeriod :=
      Nat.mul_le_mul_right _ (firstActivation_le_iff.mpr hn)
    rcases h with hshort | ⟨horder, hphase⟩
    · omega
    refine ⟨?_, (visible_pos_iff hn).mpr (horder.imp_left fun hpos => by omega)⟩
    rcases Nat.lt_or_ge (n * r.subscriberPeriod) (r.latency + r.subscriberPeriod) with hnow | hlater
    · exact (delivered_add_first_iff hs hm hperiod horder hn hnow).mpr (by omega)
    · cases n with
      | zero => have hpos := r.subscriberPeriod_pos; omega
      | succ n =>
        rw [Nat.succ_mul] at hlater
        exact delivered_add_of_later hs hperiod (by omega)

/-- A publisher of twice the subscriber's period on a route that may drop. -/
def halfRate : Route where
  publisherPeriod := 20
  subscriberPeriod := 10
  latency := 10
  duration := 80
  publisherFirst := true
  dropAbove := some 2
  publisherPeriod_pos := by decide
  subscriberPeriod_pos := by decide

theorem repeats_halfRate : halfRate.Roomy ∧ halfRate.Repeats := by
  have hroomy : halfRate.Roomy := by
    intro capacity hdrop n hn
    cases hdrop
    have hlt : n < 8 := by
      change n * 10 < 80 at hn
      omega
    have hall : ∀ n < 8, halfRate.published (n * halfRate.subscriberPeriod) ≤
        2 + halfRate.takenBefore n := by decide
    exact hall n hlt
  exact ⟨hroomy, (repeats_iff_patternShown hroomy).mpr (.inr ⟨.inl (by decide), by decide⟩)⟩

/-- Equal periods, and a Latency during which the only place of the route is
taken: the Message published at 0 is taken at 30, and the next one that finds the
route empty is published at 40. -/
def oneAtATime : Route where
  publisherPeriod := 10
  subscriberPeriod := 10
  latency := 25
  duration := 80
  publisherFirst := true
  dropAbove := some 1
  publisherPeriod_pos := by decide
  subscriberPeriod_pos := by decide

/-- A fast publisher without a Latency: the first activation has only the Message
of its own Slot. -/
def fastPublisher : Route where
  publisherPeriod := 3
  subscriberPeriod := 10
  latency := 0
  duration := 60
  publisherFirst := true
  dropAbove := none
  publisherPeriod_pos := by decide
  subscriberPeriod_pos := by decide

/-- The activation at 40 takes no Message and the one at 30 takes one; the
activation at 30 takes four and the one at 0 takes one. -/
theorem listed_pattern_breaks : (oneAtATime.PatternShown ∧ ¬ oneAtATime.Repeats) ∧
      fastPublisher.Roomy ∧ ¬ fastPublisher.Repeats := by
  refine ⟨⟨.inr ⟨.inl (by decide), by decide⟩, fun h => ?_⟩, ?_, fun h => ?_⟩
  · have hcount := (h 40 (by decide) (by decide) (by decide)).1
    revert hcount
    decide
  · intro capacity hdrop
    cases hdrop
  · have hcount := (h 30 (by decide) (by decide) (by decide)).1
    revert hcount
    decide

end Route
end SilFormal.Coupling
