import Mathlib

/-!
# Rounding to binary64

The arithmetic of double precision on the values it represents: an operation
rounds its exact result to a nearest multiple of the last place, ties to the
even one.  Results are taken to be in the normal range, so the relative error
is at most `unitRoundoff`.
-/

namespace SilFormal.Binary64

variable {x : ℚ}

/-- The integer nearest to a rational, the even one of two. -/
def roundEven (x : ℚ) : Int :=
  let rest := x - ⌊x⌋
  if rest < 1 / 2 then ⌊x⌋
  else if 1 / 2 < rest then ⌊x⌋ + 1
  else if ⌊x⌋ % 2 = 0 then ⌊x⌋ else ⌊x⌋ + 1

theorem abs_roundEven_sub_le (x : ℚ) : |(roundEven x : ℚ) - x| ≤ 1 / 2 := by
  have hfloor := Int.floor_le x
  have hlt := Int.lt_floor_add_one x
  rw [abs_le, roundEven]
  split_ifs with hlow hhigh heven
  · constructor
    · linarith
    · linarith
  · push_cast
    constructor
    · linarith
    · linarith
  · constructor
    · linarith
    · linarith
  · push_cast
    constructor
    · linarith
    · linarith

/-- The exponent of the leading bit. -/
def exponent (x : ℚ) : Int :=
  let e : Int := (x.num.natAbs.log2 : Int) - (x.den.log2 : Int)
  if (2 : ℚ) ^ e ≤ |x| then e else e - 1

theorem abs_eq_natAbs_div (x : ℚ) : |x| = (x.num.natAbs : ℚ) / x.den := by
  have hdenpos : (0 : ℚ) < x.den := by exact_mod_cast x.den_pos
  conv_lhs => rw [← Rat.num_div_den x, abs_div, abs_of_pos hdenpos]
  rw [Nat.cast_natAbs, Int.cast_abs]

theorem two_zpow_exponent_le (hx : x ≠ 0) : (2 : ℚ) ^ exponent x ≤ |x| := by
  rw [exponent]
  split_ifs with h
  · exact h
  · -- The numerator is at least its leading bit and the denominator below twice its own.
    have hnum : ((2 : ℚ) ^ x.num.natAbs.log2) ≤ (x.num.natAbs : ℚ) := by
      exact_mod_cast Nat.log2_self_le (by simpa using hx)
    have hden : (x.den : ℚ) ≤ 2 ^ (x.den.log2 + 1) := by
      exact_mod_cast Nat.lt_log2_self.le
    have hdenpos : (0 : ℚ) < x.den := by exact_mod_cast x.den_pos
    rw [abs_eq_natAbs_div, le_div_iff₀ hdenpos]
    calc (2 : ℚ) ^ ((x.num.natAbs.log2 : Int) - x.den.log2 - 1) * x.den
        ≤ (2 : ℚ) ^ ((x.num.natAbs.log2 : Int) - x.den.log2 - 1) * 2 ^ (x.den.log2 + 1) :=
          mul_le_mul_of_nonneg_left hden (zpow_pos two_pos _).le
      _ = (2 : ℚ) ^ x.num.natAbs.log2 := by
          rw [← zpow_natCast, ← zpow_natCast, ← zpow_add₀ two_ne_zero]
          congr 1
          push_cast
          ring
      _ ≤ (x.num.natAbs : ℚ) := hnum

/-- The double nearest to a rational. -/
def nearest (x : ℚ) : ℚ :=
  if x = 0 then 0
  else
    let place : ℚ := 2 ^ (exponent x - 52)
    roundEven (x / place) * place

/-- Half a place of a result that has no zero bit before its leading one. -/
def unitRoundoff : ℚ :=
  1 / 2 ^ 53

theorem abs_nearest_sub_le (x : ℚ) : |nearest x - x| ≤ |x| * unitRoundoff := by
  rw [nearest]
  split_ifs with hx
  · simp [hx]
  · have hplace : (0 : ℚ) < 2 ^ (exponent x - 52) := zpow_pos two_pos _
    have hround := abs_roundEven_sub_le (x / 2 ^ (exponent x - 52))
    calc |(roundEven (x / 2 ^ (exponent x - 52)) : ℚ) * 2 ^ (exponent x - 52) - x|
        = |(roundEven (x / 2 ^ (exponent x - 52)) : ℚ) - x / 2 ^ (exponent x - 52)| *
            2 ^ (exponent x - 52) := by
          rw [← abs_of_pos hplace, ← abs_mul, abs_of_pos hplace, sub_mul,
            div_mul_cancel₀ _ hplace.ne']
      _ ≤ 1 / 2 * 2 ^ (exponent x - 52) := mul_le_mul_of_nonneg_right hround hplace.le
      _ = 2 ^ exponent x * unitRoundoff := by
          rw [unitRoundoff, zpow_sub₀ two_ne_zero]
          ring
      _ ≤ |x| * unitRoundoff := by
          have hpos : (0 : ℚ) ≤ unitRoundoff := by norm_num [unitRoundoff]
          exact mul_le_mul_of_nonneg_right (two_zpow_exponent_le hx) hpos

theorem nearest_bounds (hx : 0 ≤ x) :
    (1 - unitRoundoff) * x ≤ nearest x ∧ nearest x ≤ (1 + unitRoundoff) * x := by
  have herror := abs_nearest_sub_le x
  rw [abs_of_nonneg hx, abs_le] at herror
  constructor
  · linarith
  · linarith

theorem lt_two_zpow_exponent_add_one (x : ℚ) : |x| < 2 ^ (exponent x + 1) := by
  rw [exponent]
  split_ifs with h
  · have hnum : (x.num.natAbs : ℚ) < 2 ^ (x.num.natAbs.log2 + 1) := by
      exact_mod_cast Nat.lt_log2_self
    have hden : ((2 : ℚ) ^ x.den.log2) ≤ x.den := by
      exact_mod_cast Nat.log2_self_le x.den_ne_zero
    rw [abs_eq_natAbs_div, div_lt_iff₀ (by exact_mod_cast x.den_pos)]
    calc (x.num.natAbs : ℚ)
        < 2 ^ (x.num.natAbs.log2 + 1) := hnum
      _ = 2 ^ ((x.num.natAbs.log2 : Int) - x.den.log2 + 1) * 2 ^ x.den.log2 := by
          rw [← zpow_natCast, ← zpow_natCast, ← zpow_add₀ two_ne_zero]
          congr 1
          push_cast
          ring
      _ ≤ 2 ^ ((x.num.natAbs.log2 : Int) - x.den.log2 + 1) * x.den :=
          mul_le_mul_of_nonneg_left hden (zpow_pos two_pos _).le
  · rw [sub_add_cancel]
    exact not_le.mp h

theorem exponent_eq {e : Int} (hlow : (2 : ℚ) ^ e ≤ |x|) (hhigh : |x| < 2 ^ (e + 1)) :
    exponent x = e := by
  have hx : x ≠ 0 := abs_pos.mp ((zpow_pos two_pos e).trans_le hlow)
  have hle := (two_zpow_exponent_le hx).trans_lt hhigh
  have hge := hlow.trans_lt (lt_two_zpow_exponent_add_one x)
  rw [zpow_lt_zpow_iff_right₀ one_lt_two] at hle hge
  omega

theorem nearest_mul_two_zpow (x : ℚ) (k : Int) : nearest (x * 2 ^ k) = nearest x * 2 ^ k := by
  have hk : (0 : ℚ) < 2 ^ k := zpow_pos two_pos k
  by_cases hx : x = 0
  · simp [nearest, hx]
  · have hexponent : exponent (x * 2 ^ k) = exponent x + k := by
      refine exponent_eq ?_ ?_
      · rw [abs_mul, abs_of_pos hk, zpow_add₀ two_ne_zero]
        exact mul_le_mul_of_nonneg_right (two_zpow_exponent_le hx) hk.le
      · rw [abs_mul, abs_of_pos hk, add_right_comm, zpow_add₀ two_ne_zero]
        exact mul_lt_mul_of_pos_right (lt_two_zpow_exponent_add_one x) hk
    have hplace : (2 : ℚ) ^ (exponent x + k - 52) = 2 ^ (exponent x - 52) * 2 ^ k := by
      rw [← zpow_add₀ two_ne_zero]
      congr 1
      ring
    rw [nearest, nearest, if_neg hx, if_neg (mul_ne_zero hx hk.ne')]
    simp only [hexponent, hplace]
    rw [mul_div_mul_right _ _ hk.ne', mul_assoc]

/-! ## Numbers that no even integer separates -/

/-- Two numbers on the same side of every even integer. -/
def SameSide (x y : ℚ) : Prop :=
  ∀ m : Int, (x < 2 * m ↔ y < 2 * m) ∧ (2 * m < x ↔ 2 * m < y)

/-- A sticky bit stands for the fraction that a division leaves. -/
theorem sameSide_sticky {q : Nat} (hlow : (q : ℚ) < x) (hhigh : x < q + 1) :
    SameSide x ((q ||| 1 : Nat) : ℚ) := by
  have hodd : (q ||| 1) % 2 = 1 := by simp
  have hcases : (q ||| 1) = q ∨ (q ||| 1) = q + 1 := by
    have hdiv : (q ||| 1) / 2 = q / 2 := by simp [Nat.or_div_two]
    omega
  intro m
  constructor
  · constructor
    · intro h
      have hq : (q : Int) < 2 * m := by exact_mod_cast hlow.trans h
      have : ((q ||| 1 : Nat) : Int) < 2 * m := by omega
      exact_mod_cast this
    · intro h
      have hq : ((q ||| 1 : Nat) : Int) < 2 * m := by exact_mod_cast h
      have : (q : Int) + 1 ≤ 2 * m := by omega
      exact hhigh.trans_le (by exact_mod_cast this)
  · constructor
    · intro h
      have hq : 2 * m < (q : Int) + 1 := by exact_mod_cast h.trans hhigh
      have : 2 * m < ((q ||| 1 : Nat) : Int) := by omega
      exact_mod_cast this
    · intro h
      have hq : 2 * m < ((q ||| 1 : Nat) : Int) := by exact_mod_cast h
      have : 2 * m ≤ (q : Int) := by omega
      exact (show (2 * m : ℚ) ≤ q by exact_mod_cast this).trans_lt hlow

/-- A place of four units has its ties on even integers. -/
theorem roundEven_eq_of_sameSide {y : ℚ} (h : SameSide x y) {k : Int} (hk : 0 < k) :
    roundEven (x / (4 * k)) = roundEven (y / (4 * k)) := by
  have hpos : (0 : ℚ) < 4 * k := by exact_mod_cast (by omega : (0 : Int) < 4 * k)
  have hlt : ∀ m : Int, x < 2 * (m : ℚ) ↔ y < 2 * m := fun m => (h m).1
  have hgt : ∀ m : Int, 2 * (m : ℚ) < x ↔ 2 * m < y := fun m => (h m).2
  have hfloor : ⌊x / (4 * k)⌋ = ⌊y / (4 * k)⌋ := by
    refine eq_of_forall_le_iff fun n => ?_
    have hn := not_congr (hlt (2 * n * k))
    push_cast at hn
    rw [Int.le_floor, Int.le_floor, le_div_iff₀ hpos, le_div_iff₀ hpos, ← not_lt, ← not_lt,
      show (n : ℚ) * (4 * k) = 2 * (2 * n * k) by ring]
    exact hn
  generalize hn : ⌊y / (4 * k)⌋ = n at hfloor
  have hlow : x / (4 * k) - n < 1 / 2 ↔ y / (4 * k) - n < 1 / 2 := by
    have hm := hlt (2 * n * k + k)
    push_cast at hm
    rw [sub_lt_iff_lt_add, sub_lt_iff_lt_add, div_lt_iff₀ hpos, div_lt_iff₀ hpos,
      show (1 / 2 + (n : ℚ)) * (4 * k) = 2 * (2 * n * k + k) by ring]
    exact hm
  have hhigh : 1 / 2 < x / (4 * k) - n ↔ 1 / 2 < y / (4 * k) - n := by
    have hm := hgt (2 * n * k + k)
    push_cast at hm
    rw [lt_sub_iff_add_lt, lt_sub_iff_add_lt, lt_div_iff₀ hpos, lt_div_iff₀ hpos,
      show (1 / 2 + (n : ℚ)) * (4 * k) = 2 * (2 * n * k + k) by ring]
    exact hm
  simp only [roundEven, hfloor, hn, hlow, hhigh]

theorem nearest_eq_of_sameSide {y : ℚ} (h : SameSide x y) (hx : 2 ^ 54 ≤ x) :
    nearest x = nearest y := by
  have hle : ∀ m : Int, 2 * (m : ℚ) ≤ x → 2 * (m : ℚ) ≤ y := fun m hm =>
    not_lt.mp fun hy => hm.not_gt ((h m).1.mpr hy)
  have hy : (2 : ℚ) ^ 54 ≤ y := by
    have := hle (2 ^ 53)
    norm_num at this ⊢
    exact this (by norm_num at hx; exact hx)
  have hx0 : 0 < x := (by norm_num : (0 : ℚ) < 2 ^ 54).trans_le hx
  have hy0 : 0 < y := (by norm_num : (0 : ℚ) < 2 ^ 54).trans_le hy
  have habove := lt_two_zpow_exponent_add_one x
  have hbelow := two_zpow_exponent_le hx0.ne'
  rw [abs_of_pos hx0] at habove hbelow
  obtain ⟨k, hk⟩ : ∃ k : Nat, exponent x = k + 54 := by
    have hlt := hx.trans_lt habove
    rw [← zpow_natCast, zpow_lt_zpow_iff_right₀ one_lt_two] at hlt
    exact ⟨(exponent x - 54).toNat, by push_cast at hlt; omega⟩
  have hpow : ∀ j : Nat, (2 : ℚ) ^ ((j : Int) + 1) = 2 * ((2 ^ j : Int) : ℚ) := fun j => by
    rw [zpow_add₀ two_ne_zero, mul_comm]
    norm_cast
  have hexponent : exponent y = exponent x := by
    refine exponent_eq ?_ ?_
    · rw [abs_of_pos hy0]
      rw [show exponent x = ((k + 53 : Nat) : Int) + 1 by rw [hk]; push_cast; ring,
        hpow] at hbelow ⊢
      exact hle _ hbelow
    · rw [abs_of_pos hy0]
      rw [show exponent x + 1 = ((k + 54 : Nat) : Int) + 1 by rw [hk]; push_cast; ring,
        hpow] at habove ⊢
      exact (h _).1.mp habove
  have hplace : (2 : ℚ) ^ (exponent x - 52) = 4 * ((2 ^ k : Int) : ℚ) := by
    rw [show exponent x - 52 = ((k + 1 : Nat) : Int) + 1 by rw [hk]; push_cast; ring, hpow]
    push_cast
    ring
  rw [nearest, nearest, if_neg hx0.ne', if_neg hy0.ne']
  simp only [hexponent, hplace]
  rw [roundEven_eq_of_sameSide h (by positivity)]

/-! ## Rounding to integers -/

/-- The nearest integer, halves away from zero. -/
def llround (x : ℚ) : Int :=
  if 0 ≤ x then ⌊x + 1 / 2⌋ else ⌈x - 1 / 2⌉

theorem llround_eq {n : Int} (h : |x - n| < 1 / 2) : llround x = n := by
  obtain ⟨hlow, hhigh⟩ := abs_lt.mp h
  rw [llround]
  split_ifs with hx
  · rw [Int.floor_eq_iff]
    constructor
    · linarith
    · linarith
  · rw [Int.ceil_eq_iff]
    constructor
    · linarith
    · linarith

end SilFormal.Binary64
