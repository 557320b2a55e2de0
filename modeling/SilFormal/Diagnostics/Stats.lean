import SilFormal.Library.Binary64
import SilFormal.Library.Loop

/-!
# Statistics over durations

The statistics that the diagnostics keep of completed Activations: a bounded
list of the slowest ones, and a mean that is rounded once.
-/

namespace SilFormal.Diagnostics

open List

structure SlowActivation where
  activationIndex : UInt64
  virtualTimeNs : UInt64
  durationNs : UInt64
  deriving DecidableEq, Repr

def kReservoirCapacity : Nat := 8192

def kSlowestRetained : Nat := 20

structure DurationDistribution where
  rngState : UInt64
  count : UInt64 := 0
  sumNs : UInt64 := 0
  minNs : UInt64 := 0
  maxNs : UInt64 := 0
  runningMean : Float := 0
  m2 : Float := 0
  samples : List UInt64 := []
  slowest : List SlowActivation := []

/-- Longer durations first, equal ones by their index. -/
def slower (a b : SlowActivation) : Bool :=
  if a.durationNs ≠ b.durationNs then b.durationNs < a.durationNs
  else a.activationIndex < b.activationIndex

namespace DurationDistribution

/-- The generator `splitmix64`. -/
def nextRandom (d : DurationDistribution) : UInt64 × DurationDistribution :=
  let state := d.rngState + 0x9E3779B97F4A7C15
  let z := (state ^^^ (state >>> 30)) * 0xBF58476D1CE4E5B9
  let z := (z ^^^ (z >>> 27)) * 0x94D049BB133111EB
  (z ^^^ (z >>> 31), { d with rngState := state })

/-- `std::upper_bound` finds the first entry that the new one is slower than. -/
def keepIfSlow (activation : SlowActivation) (slowest : List SlowActivation) :
    List SlowActivation :=
  if slowest.length = kSlowestRetained ∧ ¬ slowest.getLast?.any (slower activation) then slowest
  else
    let slowest := slowest.orderedInsert (slower · ·) activation
    if kSlowestRetained < slowest.length then slowest.dropLast else slowest

def add (d : DurationDistribution) (activationIndex virtualTimeNs durationNs : UInt64) :
    DurationDistribution :=
  let d := if d.count = 0 then { d with minNs := durationNs, maxNs := durationNs }
    else { d with minNs := min d.minNs durationNs, maxNs := max d.maxNs durationNs }
  let count := d.count + 1
  let delta := durationNs.toFloat - d.runningMean
  let mean := d.runningMean + delta / count.toFloat
  let d := { d with
    count := count
    sumNs := d.sumNs + durationNs
    runningMean := mean
    m2 := d.m2 + delta * (durationNs.toFloat - mean) }
  -- Algorithm R: a full reservoir gives up a random slot.
  let d := if d.samples.length < kReservoirCapacity then
      { d with samples := d.samples ++ [durationNs] }
    else
      let (z, d) := d.nextRandom
      let slot := (z % count).toNat
      if slot < kReservoirCapacity then { d with samples := d.samples.set slot durationNs } else d
  { d with slowest := keepIfSlow ⟨activationIndex, virtualTimeNs, durationNs⟩ d.slowest }

def addAll (d : DurationDistribution) (added : List SlowActivation) : DurationDistribution :=
  added.foldl (fun d a => d.add a.activationIndex a.virtualTimeNs a.durationNs) d

end DurationDistribution

/-! ## The slowest Activations -/

/-- Duration descending, index ascending. -/
def SlowActivation.rank (a : SlowActivation) : ℕᵒᵈ ×ₗ ℕ :=
  toLex (OrderDual.toDual a.durationNs.toNat, a.activationIndex.toNat)

variable {a : SlowActivation} {l : List SlowActivation}

theorem slower_iff {b : SlowActivation} : slower a b = true ↔ a.rank < b.rank := by
  rw [slower, SlowActivation.rank, SlowActivation.rank, Prod.Lex.toLex_lt_toLex]
  by_cases h : a.durationNs = b.durationNs
  · simp [h, UInt64.lt_iff_toNat_lt]
  · have hne : a.durationNs.toNat ≠ b.durationNs.toNat := fun hn => h (UInt64.toNat.inj hn)
    simp [h, hne, UInt64.lt_iff_toNat_lt]

/-- The first entries after an insertion depend on the first entries before it. -/
theorem take_orderedInsert (a : SlowActivation) (l : List SlowActivation) (k : Nat) :
    ((l.take k).orderedInsert (slower · ·) a).take k = (l.orderedInsert (slower · ·) a).take k := by
  induction l generalizing k with
  | nil => simp
  | cons b l ih =>
    cases k with
    | zero => rfl
    | succ k =>
      rw [take_succ_cons, orderedInsert_cons, orderedInsert_cons]
      split_ifs
      · cases k with
        | zero => rfl
        | succ k => simp [take_take]
      · rw [take_succ_cons, take_succ_cons, ih]

theorem pairwise_orderedInsert (h : l.Pairwise (·.rank < ·.rank)) (ha : ∀ b ∈ l, a.rank ≠ b.rank) :
    (l.orderedInsert (slower · ·) a).Pairwise (·.rank < ·.rank) := by
  induction l with
  | nil => simp
  | cons b l ih =>
    obtain ⟨hb, hl⟩ := pairwise_cons.mp h
    obtain ⟨hne, hrest⟩ := forall_mem_cons.mp ha
    rw [orderedInsert_cons]
    split_ifs with hslow
    · have hab := slower_iff.mp hslow
      exact pairwise_cons.mpr ⟨forall_mem_cons.mpr ⟨hab, fun c hc => hab.trans (hb c hc)⟩, h⟩
    · have hba := (not_lt.mp (mt slower_iff.mpr hslow)).lt_of_ne' hne
      refine pairwise_cons.mpr ⟨fun c hc => ?_, ih hl hrest⟩
      rcases (mem_orderedInsert _).mp hc with rfl | hc
      · exact hba
      · exact hb c hc

theorem keepIfSlow_eq_take (h : l.Pairwise (·.rank < ·.rank))
    (hlength : l.length ≤ kSlowestRetained) :
    DurationDistribution.keepIfSlow a l =
      (l.orderedInsert (slower · ·) a).take kSlowestRetained := by
  have hinserted := orderedInsert_length (slower · ·) l a
  simp only [DurationDistribution.keepIfSlow]
  split_ifs with hkept
  · -- Every entry ranks before the last one, which the new Activation does not displace.
    obtain ⟨hfull, hlast⟩ := hkept
    have hnone : ∀ b ∈ l, ¬ slower a b = true := by
      intro b hb hslow
      rcases eq_nil_or_concat' l with rfl | ⟨before, last, rfl⟩
      · cases hb
      · rw [getLast?_concat] at hlast
        rcases mem_append.mp hb with hb | hb
        · have hlt := (pairwise_append.mp h).2.2 b hb last (mem_singleton_self last)
          exact hlast (slower_iff.mpr ((slower_iff.mp hslow).trans hlt))
        · exact hlast (mem_singleton.mp hb ▸ hslow)
    have hwhile : l.takeWhile (fun b => decide ¬ slower a b = true) = l :=
      takeWhile_eq_self_iff.mpr fun b hb => decide_eq_true (hnone b hb)
    rw [orderedInsert_eq_take_drop, hwhile, ← hfull, take_left]
  · rw [dropLast_eq_take]
    congr 1
    omega
  · rw [take_of_length_le (by omega)]

theorem ranked_addAll {added : List SlowActivation}
    (h : added.Pairwise (·.activationIndex < ·.activationIndex)) :
    ∃ ranked : List SlowActivation, ranked.Perm added ∧ ranked.Pairwise (·.rank < ·.rank) ∧
      added.foldl (fun l a => DurationDistribution.keepIfSlow a l) [] =
        ranked.take kSlowestRetained := by
  induction added using reverseRecOn with
  | nil => exact ⟨[], .nil, .nil, rfl⟩
  | append_singleton added a ih =>
    obtain ⟨hadded, -, hlater⟩ := pairwise_append.mp h
    obtain ⟨ranked, hperm, hranked, hfold⟩ := ih hadded
    refine ⟨ranked.orderedInsert (slower · ·) a, ?_, pairwise_orderedInsert hranked ?_, ?_⟩
    · exact (perm_orderedInsert _ a ranked).trans
        ((hperm.cons a).trans (perm_append_singleton a added).symm)
    · intro b hb heq
      have hlt := hlater b (hperm.mem_iff.mp hb) a (mem_singleton_self a)
      have hindex : a.activationIndex.toNat = b.activationIndex.toNat := congrArg (·.2) heq
      rw [UInt64.lt_iff_toNat_lt, hindex] at hlt
      exact hlt.ne rfl
    · rw [foldl_append, hfold, ← take_orderedInsert]
      exact keepIfSlow_eq_take (hranked.sublist (take_sublist _ _)) (by simp)

theorem slowest_addAll (d : DurationDistribution) (added : List SlowActivation) :
    (d.addAll added).slowest =
      added.foldl (fun l a => DurationDistribution.keepIfSlow a l) d.slowest := by
  induction added generalizing d with
  | nil => rfl
  | cons a added ih =>
    have hadd : (d.add a.activationIndex a.virtualTimeNs a.durationNs).slowest =
        DurationDistribution.keepIfSlow a d.slowest := by
      simp only [DurationDistribution.add, DurationDistribution.nextRandom,
        apply_ite DurationDistribution.slowest, ite_self]
    rw [foldl_cons, ← hadd]
    exact ih _

/-- The diagnostics keep the slowest Activations: after additions with increasing
indices they are the first ones by duration descending, then by index. -/
theorem slowest_eq_first_ranked (seed : UInt64) (added : List SlowActivation)
    (h : added.Pairwise (·.activationIndex < ·.activationIndex)) :
    (DurationDistribution.addAll { rngState := seed } added).slowest =
      (added.mergeSort fun a b => decide (a.rank ≤ b.rank)).take
        (min added.length kSlowestRetained) := by
  obtain ⟨ranked, hperm, hranked, hfold⟩ := ranked_addAll h
  have hsorted : ranked = added.mergeSort fun a b => decide (a.rank ≤ b.rank) := by
    refine (hperm.trans (mergeSort_perm added _).symm).eq_of_pairwise ?_
      (hranked.imp fun hab => decide_eq_true hab.le) (pairwise_mergeSort ?_ ?_ added)
    · intro a b ha hb hab hba
      have hnodup : (ranked.map (·.rank)).Nodup := pairwise_map.mpr (hranked.imp ne_of_lt)
      have hmem := hperm.mem_iff.mpr ((mergeSort_perm added _).mem_iff.mp hb)
      exact inj_on_of_nodup_map hnodup ha hmem
        (le_antisymm (of_decide_eq_true hab) (of_decide_eq_true hba))
    · intro a b c hab hbc
      exact decide_eq_true ((of_decide_eq_true hab).trans (of_decide_eq_true hbc))
    · intro a b
      simpa using le_total a.rank b.rank
  rw [slowest_addAll, hfold, hsorted]
  simp [Nat.min_comm]

/-- 22 Activations of at most two nanoseconds. -/
def shortActivations : List SlowActivation :=
  (List.range 22).map fun i => ⟨.ofNat i, .ofNat (10 * i), .ofNat (i % 3)⟩

/-- Two of the shortest ones are cut off. -/
theorem slowest_eq_first_ranked_cut :
    (DurationDistribution.addAll { rngState := 1 } shortActivations).slowest =
        (shortActivations.mergeSort fun a b => decide (a.rank ≤ b.rank)).take 20 ∧
      (DurationDistribution.addAll { rngState := 1 } shortActivations).slowest.map
          (·.activationIndex) =
        [2, 5, 8, 11, 14, 17, 20, 1, 4, 7, 10, 13, 16, 19, 0, 3, 6, 9, 12, 15] :=
  ⟨slowest_eq_first_ranked 1 shortActivations (by decide +kernel), by decide +kernel⟩

/-! ## The mean -/

/-- The loop that scales the numerator, on a value of 128 bits and its shift. -/
def scale (atLeast : BitVec 128) (s : BitVec 128 × Nat) : Option (BitVec 128 × Nat) :=
  if s.1 < atLeast then some (s.1 <<< 1, s.2 + 1) else none

section Quotient

variable (numerator denominator : UInt64) {s : BitVec 128 × Nat}

def atLeast : BitVec 128 :=
  denominator.toBitVec.setWidth 128 <<< 54

def unscaled : BitVec 128 × Nat :=
  (numerator.toBitVec.setWidth 128, 0)

/-- The quotient, with a sticky bit for the remainder. -/
def stickyQuotient (scaled : BitVec 128) : BitVec 128 :=
  let divisor := denominator.toBitVec.setWidth 128
  if scaled % divisor ≠ 0 then scaled / divisor ||| 1 else scaled / divisor

/-- `ldexp` scales a double exactly here: no quotient of two words is near the
ends of the range of its exponent. -/
def correctlyRoundedQuotient (fuel : Nat) : ℚ :=
  if numerator = 0 then 0
  else
    let (scaled, shift) := Loop.run (scale (atLeast denominator)) fuel (unscaled numerator)
    Binary64.nearest (stickyQuotient denominator scaled).toNat * 2 ^ (-(shift : Int))

theorem toNat_unscaled : (unscaled numerator).1.toNat = numerator.toNat * 2 ^ 0 := by
  have hlt := numerator.toNat_lt
  rw [unscaled, BitVec.toNat_setWidth, UInt64.toNat_toBitVec]
  omega

theorem toNat_atLeast : (atLeast denominator).toNat = denominator.toNat * 2 ^ 54 := by
  have hlt := denominator.toNat_lt
  simp only [atLeast, BitVec.toNat_shiftLeft, BitVec.toNat_setWidth, UInt64.toNat_toBitVec]
  omega

variable {numerator denominator}

/-- No iteration shifts a bit out. -/
theorem scale_exact {t : BitVec 128 × Nat} (h : s.1.toNat = numerator.toNat * 2 ^ s.2)
    (hstep : scale (atLeast denominator) s = some t) :
    t.1.toNat = numerator.toNat * 2 ^ t.2 ∧ t.2 = s.2 + 1 ∧ s.1.toNat < 2 ^ 118 := by
  rw [scale] at hstep
  split_ifs at hstep with hlt
  cases hstep
  have hd := denominator.toNat_lt
  rw [BitVec.lt_def, toNat_atLeast] at hlt
  have hbound : s.1.toNat < 2 ^ 118 := by omega
  refine ⟨?_, rfl, hbound⟩
  rw [BitVec.toNat_shiftLeft, Nat.shiftLeft_eq, Nat.mod_eq_of_lt (by omega), h, mul_assoc,
    ← pow_add]

theorem scale_reach (h : Loop.Reach (scale (atLeast denominator)) (unscaled numerator) s) :
    s.1.toNat = numerator.toNat * 2 ^ s.2 :=
  h.invariant (I := fun s => s.1.toNat = numerator.toNat * 2 ^ s.2)
    (fun _ _ hs hstep => (scale_exact hs hstep).1) (toNat_unscaled numerator)

theorem scale_halts (hn : numerator ≠ 0) {fuel : Nat} (hfuel : 118 ≤ fuel) :
    Loop.Halted (scale (atLeast denominator))
      (Loop.run (scale (atLeast denominator)) fuel (unscaled numerator)) := by
  have hpos : 0 < numerator.toNat := Nat.pos_of_ne_zero fun h => hn (UInt64.toNat.inj h)
  refine Loop.run_halts
    (fun s => 118 - s.2) (fun _ _ hs hstep => (scale_exact hs hstep).1) ?_ fuel _
    (toNat_unscaled numerator) hfuel
  intro s t hs hstep
  obtain ⟨-, ht, hlt⟩ := scale_exact hs hstep
  have hshift : 2 ^ s.2 < 2 ^ 118 := (Nat.le_mul_of_pos_left _ hpos).trans_lt (hs ▸ hlt)
  have := (Nat.pow_lt_pow_iff_right (by decide)).mp hshift
  omega

theorem le_of_halted (h : Loop.Halted (scale (atLeast denominator)) s) :
    denominator.toNat * 2 ^ 54 ≤ s.1.toNat := by
  rw [Loop.Halted, scale] at h
  split_ifs at h with hlt
  rwa [BitVec.lt_def, toNat_atLeast, not_lt] at hlt

/-- The sticky bit decides as the exact quotient does. -/
theorem sameSide_stickyQuotient (hd : denominator ≠ 0) (scaled : BitVec 128) :
    Binary64.SameSide (scaled.toNat / denominator.toNat : ℚ)
      (stickyQuotient denominator scaled).toNat := by
  have hpos : 0 < denominator.toNat := Nat.pos_of_ne_zero fun h => hd (UInt64.toNat.inj h)
  have hlt := denominator.toNat_lt
  have hdivisor : (denominator.toBitVec.setWidth 128).toNat = denominator.toNat := by
    rw [BitVec.toNat_setWidth, UInt64.toNat_toBitVec]
    omega
  have hcast : (0 : ℚ) < denominator.toNat := by exact_mod_cast hpos
  have hmod : (scaled.toNat : ℚ) = (scaled.toNat / denominator.toNat : Nat) * denominator.toNat +
      (scaled.toNat % denominator.toNat : Nat) := by
    exact_mod_cast (Nat.div_add_mod' scaled.toNat denominator.toNat).symm
  have hzero : scaled % denominator.toBitVec.setWidth 128 = 0 ↔
      scaled.toNat % denominator.toNat = 0 := by
    rw [← BitVec.toNat_inj, BitVec.toNat_umod]
    rfl
  unfold stickyQuotient
  dsimp only
  split_ifs with hrest
  · rw [Ne, hzero] at hrest
    have hrem : ((scaled.toNat % denominator.toNat : Nat) : ℚ) < denominator.toNat := by
      exact_mod_cast Nat.mod_lt scaled.toNat hpos
    have hrempos : (0 : ℚ) < (scaled.toNat % denominator.toNat : Nat) := by
      exact_mod_cast Nat.pos_of_ne_zero hrest
    rw [BitVec.toNat_or, BitVec.toNat_udiv, hdivisor]
    refine Binary64.sameSide_sticky ?_ ?_
    · rw [lt_div_iff₀ hcast]
      linarith
    · rw [div_lt_iff₀ hcast]
      linarith
  · rw [not_not, hzero] at hrest
    rw [BitVec.toNat_udiv, hmod, hrest, Nat.cast_zero, add_zero, mul_div_cancel_right₀ _ hcast.ne']
    exact fun m => ⟨Iff.rfl, Iff.rfl⟩

theorem nearest_stickyQuotient (hd : denominator ≠ 0)
    (hexact : s.1.toNat = numerator.toNat * 2 ^ s.2)
    (hhalted : Loop.Halted (scale (atLeast denominator)) s) :
    Binary64.nearest (stickyQuotient denominator s.1).toNat * 2 ^ (-(s.2 : Int)) =
      Binary64.nearest (numerator.toNat / denominator.toNat) := by
  have hpos : (0 : ℚ) < denominator.toNat := by
    exact_mod_cast Nat.pos_of_ne_zero fun h => hd (UInt64.toNat.inj h)
  have hlarge : (2 : ℚ) ^ 54 ≤ s.1.toNat / denominator.toNat := by
    rw [le_div_iff₀ hpos, mul_comm]
    exact_mod_cast le_of_halted hhalted
  have hvalue : (s.1.toNat / denominator.toNat : ℚ) * 2 ^ (-(s.2 : Int)) =
      numerator.toNat / denominator.toNat := by
    rw [hexact, zpow_neg, zpow_natCast, Nat.cast_mul, Nat.cast_pow, Nat.cast_ofNat]
    field_simp
  rw [← Binary64.nearest_eq_of_sameSide (sameSide_stickyQuotient hd s.1) hlarge,
    ← Binary64.nearest_mul_two_zpow, hvalue]

/-- The mean is rounded once. -/
theorem correctlyRoundedQuotient_eq_nearest (hn : numerator ≠ 0) (hd : denominator ≠ 0) {fuel : Nat}
    (hfuel : 118 ≤ fuel) :
    Loop.Halted (scale (atLeast denominator))
        (Loop.run (scale (atLeast denominator)) fuel (unscaled numerator)) ∧
      (∀ s, Loop.Reach (scale (atLeast denominator)) (unscaled numerator) s →
        s.1.toNat = numerator.toNat * 2 ^ s.2) ∧
      correctlyRoundedQuotient numerator denominator fuel =
        Binary64.nearest (numerator.toNat / denominator.toNat) := by
  have hhalted := @scale_halts numerator denominator hn fuel hfuel
  refine ⟨hhalted, fun s => scale_reach, ?_⟩
  rw [correctlyRoundedQuotient, if_neg hn]
  exact nearest_stickyQuotient hd (scale_reach (Loop.run_reach fuel _)) hhalted

theorem correctlyRoundedQuotient_eq_nearest_third : correctlyRoundedQuotient 1 3 118 =
      Binary64.nearest ((1 : UInt64).toNat / (3 : UInt64).toNat) :=
  (correctlyRoundedQuotient_eq_nearest (by decide) (by decide) le_rfl).2.2

end Quotient
end SilFormal.Diagnostics
