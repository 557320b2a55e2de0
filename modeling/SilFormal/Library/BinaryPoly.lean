import Mathlib

/-!
# Numbers as polynomials over the field of two elements

The bits of a number are the coefficients of a polynomial: exclusive or is
addition, and a shift to the left is multiplication by a power of `X`.  Two
ways to compute a remainder are correct for every generator of degree `d`:
long division on numbers, and a shift register that reads a message from its
highest coefficient on.
-/

namespace SilFormal.BinaryPoly

open Polynomial

/-- The polynomial whose coefficients are the bits of a number. -/
noncomputable def ofNat (n : ℕ) : (ZMod 2)[X] :=
  ∑ i ∈ Finset.range n.size, if n.testBit i then X ^ i else 0

/-- The polynomial of a message, its highest coefficient first. -/
noncomputable def ofBits (bits : List Bool) : (ZMod 2)[X] :=
  bits.foldl (fun p b => p * X + if b then 1 else 0) 0

theorem coeff_ofNat (n i : ℕ) : (ofNat n).coeff i = if n.testBit i then 1 else 0 := by
  rw [ofNat, finsetSum_coeff]
  by_cases hi : i < n.size
  · rw [Finset.sum_eq_single_of_mem i (Finset.mem_range.mpr hi)]
    · split <;> simp
    · intro j _ hne
      split
      · rw [coeff_X_pow, if_neg hne.symm]
      · rfl
  · have hbit : n.testBit i = false :=
      Nat.testBit_eq_false_of_lt (Nat.size_le.mp (not_lt.mp hi))
    rw [hbit]
    refine Finset.sum_eq_zero fun j hj => ?_
    have hne : i ≠ j := by
      have := Finset.mem_range.mp hj
      omega
    split
    · rw [coeff_X_pow, if_neg hne]
    · rfl

theorem ofNat_injective : Function.Injective ofNat := by
  intro m n h
  refine Nat.eq_of_testBit_eq fun i => ?_
  have hcoeff := congrArg (fun p => p.coeff i) h
  simp only [coeff_ofNat] at hcoeff
  cases hm : m.testBit i <;> cases hn : n.testBit i <;> simp [hm, hn] at hcoeff ⊢

theorem ofNat_xor (m n : ℕ) : ofNat (m ^^^ n) = ofNat m + ofNat n := by
  ext i
  rw [coeff_add, coeff_ofNat, coeff_ofNat, coeff_ofNat, Nat.testBit_xor]
  cases m.testBit i <;> cases n.testBit i <;> decide

theorem ofNat_shiftLeft (n k : ℕ) : ofNat (n <<< k) = ofNat n * X ^ k := by
  ext i
  rw [coeff_mul_X_pow', coeff_ofNat]
  by_cases hk : k ≤ i
  · simp [hk, coeff_ofNat]
  · simp [hk]

theorem degree_ofNat_lt {n d : ℕ} (h : n < 2 ^ d) : (ofNat n).degree < d := by
  rw [degree_lt_iff_coeff_zero]
  intro i hi
  rw [coeff_ofNat, Nat.testBit_eq_false_of_lt (h.trans_le (Nat.pow_le_pow_right (by decide) hi))]
  rfl

theorem ofNat_two_pow (d : ℕ) : ofNat (2 ^ d) = X ^ d := by
  ext i
  rw [coeff_ofNat, Nat.testBit_two_pow]
  simp [eq_comm]

theorem two_eq_zero : (2 : (ZMod 2)[X]) = 0 := by
  exact (congrArg C (by decide : (2 : ZMod 2) = 0)).trans C_0

/-- The number a list of bits denotes, its highest bit first. -/
def value (bits : List Bool) : ℕ :=
  bits.foldl (fun n b => 2 * n + b.toNat) 0

theorem ofNat_double_add (n : ℕ) (b : Bool) :
    ofNat (2 * n + b.toNat) = ofNat n * X + if b then 1 else 0 := by
  have hsplit : 2 * n + b.toNat = n <<< 1 ^^^ b.toNat := by
    refine Nat.eq_of_testBit_eq fun i => ?_
    rw [Nat.testBit_xor, Nat.testBit_shiftLeft]
    cases i with
    | zero => cases b <;> simp
    | succ i =>
      have hhalf : (2 * n + b.toNat) / 2 = n := by
        have := b.toNat_lt
        omega
      rw [Nat.testBit_succ, hhalf]
      cases b <;> simp [Nat.testBit_succ]
  have hbit : ofNat b.toNat = if b then 1 else 0 := by
    cases b
    · simp [ofNat]
    · simpa using ofNat_two_pow 0
  rw [hsplit, ofNat_xor, ofNat_shiftLeft, pow_one, hbit]

theorem ofNat_value (bits : List Bool) : ofNat (value bits) = ofBits bits := by
  induction bits using List.reverseRecOn with
  | nil => simp [value, ofBits, ofNat]
  | append_singleton bits bit ih =>
    simp only [value, ofBits, List.foldl_append, List.foldl_cons, List.foldl_nil] at ih ⊢
    rw [ofNat_double_add, ih]

/-! ## Generators -/

/-- A monic polynomial of a degree, by the number of its other coefficients. -/
structure Generator where
  degree : ℕ
  low : ℕ
  low_lt : low < 2 ^ degree

namespace Generator

variable (g : Generator)

/-- All coefficients. -/
def number : ℕ :=
  2 ^ g.degree ^^^ g.low

noncomputable def poly : (ZMod 2)[X] :=
  X ^ g.degree + ofNat g.low

theorem ofNat_number : ofNat g.number = g.poly := by
  rw [number, ofNat_xor, ofNat_two_pow, poly]

theorem monic : g.poly.Monic :=
  monic_X_pow_add (degree_ofNat_lt g.low_lt)

theorem degree_poly : g.poly.degree = g.degree := by
  have hlow := degree_ofNat_lt g.low_lt
  rw [poly, degree_add_eq_left_of_degree_lt (by rwa [degree_X_pow]), degree_X_pow]

theorem testBit_number (i : ℕ) (hi : g.degree ≤ i) :
    g.number.testBit i = decide (i = g.degree) := by
  rw [number, Nat.testBit_xor, Nat.testBit_two_pow,
    Nat.testBit_eq_false_of_lt (g.low_lt.trans_le (Nat.pow_le_pow_right (by decide) hi))]
  simp [eq_comm]

/-- A number below the generator's degree is the remainder of everything it is
congruent to. -/
theorem modByMonic_eq {p : (ZMod 2)[X]} {n : ℕ} (hdvd : g.poly ∣ p - ofNat n)
    (hn : n < 2 ^ g.degree) : p %ₘ g.poly = ofNat n := by
  rw [modByMonic_eq_of_dvd_sub g.monic hdvd, modByMonic_eq_self_iff g.monic, g.degree_poly]
  exact degree_ofNat_lt hn

/-! ## Long division -/

/-- Long division: multiples of the generator are taken away from the top, as
long as the rest has a bit at or above its degree. -/
def reduce : ℕ → ℕ → ℕ
  | 0, rest => rest
  | fuel + 1, rest =>
    if g.degree < rest.size then
      reduce fuel (rest ^^^ g.number <<< (rest.size - (g.degree + 1)))
    else rest

/-- One multiple cancels the highest bit. -/
theorem size_reduced_lt {rest : ℕ} (h : g.degree < rest.size) :
    (rest ^^^ g.number <<< (rest.size - (g.degree + 1))).size < rest.size := by
  have hbelow : rest ^^^ g.number <<< (rest.size - (g.degree + 1)) < 2 ^ (rest.size - 1) := by
    refine Nat.lt_pow_two_of_testBit _ fun i hi => ?_
    rw [Nat.testBit_xor, Nat.testBit_shiftLeft, g.testBit_number _ (by omega)]
    by_cases htop : i = rest.size - 1
    · -- Both have a one at the top.
      have hone : rest.testBit i = true := by
        refine Nat.testBit_of_two_pow_le_and_two_pow_add_one_gt ?_ ?_
        · exact Nat.lt_size.mp (by omega)
        · exact Nat.size_le.mp (by omega)
      rw [hone, decide_eq_true (by omega), decide_eq_true (by omega)]
      rfl
    · have hzero : rest.testBit i = false :=
        Nat.testBit_eq_false_of_lt (Nat.size_le.mp (by omega))
      rw [hzero, decide_eq_false (p := i - (rest.size - (g.degree + 1)) = g.degree) (by omega)]
      simp
  have hsize := Nat.size_le.mpr hbelow
  omega

/-- Long division leaves the remainder. -/
theorem reduce_spec {fuel rest : ℕ} (h : rest.size ≤ fuel) :
    g.reduce fuel rest < 2 ^ g.degree ∧ g.poly ∣ ofNat rest - ofNat (g.reduce fuel rest) := by
  induction fuel generalizing rest with
  | zero =>
    have hzero : rest = 0 := Nat.size_eq_zero.mp (by omega)
    subst hzero
    exact ⟨Nat.two_pow_pos _, by simp [reduce]⟩
  | succ fuel ih =>
    rw [reduce]
    split
    · rename_i hlarge
      have hlt := g.size_reduced_lt hlarge
      have hfuel : (rest ^^^ g.number <<< (rest.size - (g.degree + 1))).size ≤ fuel := by omega
      obtain ⟨hbound, hdvd⟩ := ih hfuel
      refine ⟨hbound, ?_⟩
      rw [ofNat_xor, ofNat_shiftLeft, ofNat_number] at hdvd
      obtain ⟨q, hq⟩ := hdvd
      exact ⟨q - X ^ (rest.size - (g.degree + 1)), by linear_combination hq⟩
    · rename_i hsmall
      exact ⟨Nat.size_le.mp (not_lt.mp hsmall), by simp⟩

/-! ## Shift registers -/

/-- A shift register of the generator's width: the bit that is shifted out and
the bit that is read decide whether the generator is added. -/
def shift (register : ℕ) (bit : Bool) : ℕ :=
  if bit != register.testBit (g.degree - 1) then
    ((register <<< 1) &&& (2 ^ g.degree - 1)) ^^^ g.low
  else (register <<< 1) &&& (2 ^ g.degree - 1)

variable {g}

/-- Shifting a register shifts out its highest bit. -/
theorem ofNat_shifted {register : ℕ} (h : register < 2 ^ g.degree) (hdegree : 0 < g.degree) :
    ofNat register * X = ofNat ((register <<< 1) &&& (2 ^ g.degree - 1)) +
        if register.testBit (g.degree - 1) then X ^ g.degree else 0 := by
  ext i
  rw [← pow_one X, ← ofNat_shiftLeft, coeff_add, coeff_ofNat, coeff_ofNat, Nat.testBit_and]
  rcases lt_trichotomy i g.degree with hlt | rfl | hgt
  · have hnone : (if register.testBit (g.degree - 1) then (X : (ZMod 2)[X]) ^ g.degree
        else 0).coeff i = 0 := by
      split
      · rw [coeff_X_pow, if_neg hlt.ne]
      · rfl
    simp [hlt, hnone]
  · rw [Nat.testBit_shiftLeft, decide_eq_true (show g.degree ≥ 1 from hdegree)]
    cases register.testBit (g.degree - 1) <;> simp
  · have hzero : (register <<< 1).testBit i = false := by
      rw [Nat.testBit_shiftLeft, Nat.testBit_eq_false_of_lt, Bool.and_false]
      exact h.trans_le (Nat.pow_le_pow_right (by decide) (by omega))
    have hnone : (if register.testBit (g.degree - 1) then (X : (ZMod 2)[X]) ^ g.degree
        else 0).coeff i = 0 := by
      split
      · rw [coeff_X_pow, if_neg hgt.ne']
      · rfl
    simp [hzero, hnone]

theorem shift_spec {register : ℕ} {p : (ZMod 2)[X]} (hdegree : 0 < g.degree)
    (h : register < 2 ^ g.degree) (hdvd : g.poly ∣ p - ofNat register) (bit : Bool) :
    g.shift register bit < 2 ^ g.degree ∧
      g.poly ∣ (p * X + (if bit then X ^ g.degree else 0)) - ofNat (g.shift register bit) := by
  have hkept : (register <<< 1) &&& (2 ^ g.degree - 1) < 2 ^ g.degree := by
    rw [Nat.and_two_pow_sub_one_eq_mod]
    exact Nat.mod_lt _ (Nat.two_pow_pos _)
  have hshifted := ofNat_shifted h hdegree
  obtain ⟨q, hq⟩ := hdvd
  have htwo := two_eq_zero
  rw [shift]
  -- What is shifted out and what is read cancel, or one of them is a multiple
  -- of the generator up to its lower coefficients.
  cases hout : register.testBit (g.degree - 1) <;> cases bit
  all_goals simp only [hout, Bool.false_eq_true, if_true, if_false] at hshifted
  · refine ⟨hkept, q * X, ?_⟩
    simp only [bne_self_eq_false, Bool.false_eq_true, if_false]
    linear_combination X * hq + hshifted
  · refine ⟨Nat.xor_lt_two_pow hkept g.low_lt, q * X + 1, ?_⟩
    simp only [Bool.true_bne, Bool.not_false, if_true, ofNat_xor]
    rw [Generator.poly] at hq ⊢
    linear_combination X * hq + hshifted - ofNat g.low * htwo
  · refine ⟨Nat.xor_lt_two_pow hkept g.low_lt, q * X + 1, ?_⟩
    simp only [Bool.false_bne, if_true, Bool.false_eq_true, if_false, ofNat_xor]
    rw [Generator.poly] at hq ⊢
    linear_combination X * hq + hshifted - ofNat g.low * htwo
  · refine ⟨hkept, q * X, ?_⟩
    simp only [bne_self_eq_false, Bool.false_eq_true, if_false, if_true]
    linear_combination X * hq + hshifted + X ^ g.degree * htwo

/-- A register that has read a message holds the remainder of the message
times the power of the generator's degree. -/
theorem foldl_shift_spec (hdegree : 0 < g.degree) (bits : List Bool) :
    bits.foldl g.shift 0 < 2 ^ g.degree ∧
      g.poly ∣ ofBits bits * X ^ g.degree - ofNat (bits.foldl g.shift 0) := by
  induction bits using List.reverseRecOn with
  | nil => exact ⟨Nat.two_pow_pos _, by simp [ofBits, ofNat]⟩
  | append_singleton bits bit ih =>
    obtain ⟨hbound, hdvd⟩ := ih
    have hstep := shift_spec hdegree hbound hdvd bit
    rw [List.foldl_append, List.foldl_cons]
    refine ⟨hstep.1, ?_⟩
    have hbits : ofBits (bits ++ [bit]) * X ^ g.degree =
        ofBits bits * X ^ g.degree * X + if bit then X ^ g.degree else 0 := by
      simp only [ofBits]
      cases bit <;> simp <;> ring
    rw [hbits]
    exact hstep.2

end Generator
end SilFormal.BinaryPoly
