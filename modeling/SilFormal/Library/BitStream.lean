import Mathlib

/-!
# Streams of bits

A number of a fixed width is a list of bits, the most significant one first.  A
stream of bits is cut into groups of one width, and numbers of one width are
regrouped into numbers of another by writing out their bits.
-/

namespace SilFormal.BitStream

open List

/-- The lowest `width` bits of a number, the most significant one first. -/
def toBits : Nat → Nat → List Bool
  | 0, _ => []
  | width + 1, n => n.testBit width :: toBits width n

/-- The number that bits spell. -/
def ofBits (bits : List Bool) : Nat :=
  bits.foldl (fun n b => 2 * n + b.toNat) 0

/-- The numbers in a stream of bits, without a last group that is not full. -/
def groups (width : Nat) (bits : List Bool) : List Nat :=
  (List.range (bits.length / width)).map fun k => ofBits ((bits.drop (k * width)).take width)

@[simp] theorem length_toBits (width n : Nat) : (toBits width n).length = width := by
  induction width with
  | zero => rfl
  | succ width ih => simp [toBits, ih]

theorem toBits_congr {width n m : Nat} (h : ∀ i < width, n.testBit i = m.testBit i) :
    toBits width n = toBits width m := by
  induction width with
  | zero => rfl
  | succ width ih =>
    rw [toBits, toBits, h width (Nat.lt_succ_self _), ih fun i hi => h i (Nat.lt_succ_of_lt hi)]

/-- The high bits of a number in front of its low bits. -/
theorem toBits_add (high low n : Nat) :
    toBits (high + low) n = toBits high (n >>> low) ++ toBits low n := by
  induction high with
  | zero => simp [toBits]
  | succ high ih =>
    rw [Nat.succ_add, toBits, toBits, ih, Nat.testBit_shiftRight, Nat.add_comm low high,
      cons_append]

theorem toBits_zero (width : Nat) : toBits width 0 = List.replicate width false := by
  induction width with
  | zero => rfl
  | succ width ih => simp [toBits, ih, replicate_succ]

theorem ofBits_append_singleton (bits : List Bool) (b : Bool) :
    ofBits (bits ++ [b]) = 2 * ofBits bits + b.toNat := by
  simp [ofBits]

theorem ofBits_toBits (width n : Nat) : ofBits (toBits width n) = n % 2 ^ width := by
  induction width generalizing n with
  | zero => simp [toBits, ofBits, Nat.mod_one]
  | succ width ih =>
    rw [toBits_add width 1 n, show toBits 1 n = [n.testBit 0] from rfl, ofBits_append_singleton,
      ih, Nat.shiftRight_one, Nat.pow_succ', Nat.mod_mul]
    rcases Nat.mod_two_eq_zero_or_one n with h | h
    · simp [h]
    · simp [h]
      omega

theorem ofBits_cons (b : Bool) (bits : List Bool) :
    ofBits (b :: bits) = b.toNat * 2 ^ bits.length + ofBits bits := by
  induction bits using reverseRecOn with
  | nil => simp [ofBits]
  | append_singleton bits c ih =>
    rw [← cons_append, ofBits_append_singleton, ih, ofBits_append_singleton,
      length_append, length_singleton]
    ring

theorem ofBits_lt (bits : List Bool) : ofBits bits < 2 ^ bits.length := by
  induction bits with
  | nil => simp [ofBits]
  | cons b bits ih =>
    have hb := Bool.toNat_le b
    rw [ofBits_cons, length_cons]
    have hmul := Nat.mul_le_mul_right (2 ^ bits.length) hb
    omega

theorem toBits_ofBits (bits : List Bool) : toBits bits.length (ofBits bits) = bits := by
  induction bits with
  | nil => rfl
  | cons b bits ih =>
    have hlt := ofBits_lt bits
    have hlow : ∀ i < bits.length,
        (b.toNat * 2 ^ bits.length + ofBits bits).testBit i = (ofBits bits).testBit i := by
      intro i hi
      rw [Nat.mul_comm, Nat.testBit_two_pow_mul_add _ hlt, if_pos hi]
    have hhigh : (b.toNat * 2 ^ bits.length + ofBits bits).testBit bits.length = b := by
      rw [Nat.mul_comm, Nat.testBit_two_pow_mul_add _ hlt, if_neg (Nat.lt_irrefl _), Nat.sub_self]
      cases b <;> rfl
    rw [length_cons, toBits, ofBits_cons, hhigh, toBits_congr hlow, ih]

section Groups

variable {width : Nat}

theorem groups_nil : groups width [] = [] := by
  simp [groups]

theorem groups_append (hwidth : 0 < width) {front : List Bool} (h : front.length = width)
    (bits : List Bool) : groups width (front ++ bits) = ofBits front :: groups width bits := by
  have hlength : (front ++ bits).length / width = bits.length / width + 1 := by
    rw [length_append, h, Nat.add_div_left _ hwidth]
  rw [groups, hlength, range_succ_eq_map, map_cons, map_map]
  refine congrArg₂ _ ?_ (map_congr_left fun k _ => ?_)
  · rw [Nat.zero_mul, drop_zero, take_append_of_le_length h.ge, ← h, take_length]
  · rw [Function.comp_apply, Nat.succ_mul, Nat.add_comm, ← drop_drop, ← h, drop_left]

theorem groups_of_lt {bits : List Bool} (h : bits.length < width) : groups width bits = [] := by
  rw [groups, Nat.div_eq_of_lt h]
  rfl

@[simp] theorem length_groups (bits : List Bool) :
    (groups width bits).length = bits.length / width := by
  simp [groups]

/-- Numbers of a width are the first groups of a stream that starts with their
bits. -/
theorem groups_flatMap_append (hwidth : 0 < width) {numbers : List Nat}
    (h : ∀ n ∈ numbers, n < 2 ^ width) (rest : List Bool) :
    groups width (numbers.flatMap (toBits width) ++ rest) = numbers ++ groups width rest := by
  induction numbers with
  | nil => rfl
  | cons n numbers ih =>
    obtain ⟨hn, hnumbers⟩ := forall_mem_cons.mp h
    rw [flatMap_cons, append_assoc, groups_append hwidth (length_toBits _ _),
      ofBits_toBits, Nat.mod_eq_of_lt hn, ih hnumbers, cons_append]

/-- Less than a group at the end is dropped. -/
theorem groups_flatMap (hwidth : 0 < width) {numbers : List Nat} (h : ∀ n ∈ numbers, n < 2 ^ width)
    {rest : List Bool} (hrest : rest.length < width) :
    groups width (numbers.flatMap (toBits width) ++ rest) = numbers := by
  rw [groups_flatMap_append hwidth h, groups_of_lt hrest, append_nil]

/-- Full groups hold all the bits. -/
theorem flatMap_groups (hwidth : 0 < width) {bits : List Bool} (h : width ∣ bits.length) :
    (groups width bits).flatMap (toBits width) = bits := by
  obtain ⟨count, hcount⟩ := h
  induction count generalizing bits with
  | zero =>
    rw [length_eq_zero_iff.mp hcount, groups_nil]
    rfl
  | succ count ih =>
    have hfront : (bits.take width).length = width := by
      rw [length_take, hcount, Nat.mul_succ]
      omega
    have hback : (bits.drop width).length = width * count := by
      rw [length_drop, hcount, Nat.mul_succ, Nat.add_sub_cancel]
    have hbits := toBits_ofBits (bits.take width)
    rw [hfront] at hbits
    conv_lhs => rw [← take_append_drop width bits]
    rw [groups_append hwidth hfront, flatMap_cons, hbits, ih hback, take_append_drop]

theorem take_flatMap_toBits (numbers : List Nat) (count : Nat) :
    (numbers.flatMap (toBits width)).take (width * count) =
      (numbers.take count).flatMap (toBits width) := by
  induction numbers generalizing count with
  | nil => simp
  | cons n numbers ih =>
    cases count with
    | zero => simp
    | succ count =>
      rw [flatMap_cons, take_succ_cons, flatMap_cons, ← ih, Nat.mul_succ,
        Nat.add_comm, take_append, length_toBits, Nat.add_sub_cancel_left,
        take_of_length_le (by rw [length_toBits]; exact Nat.le_add_right _ _)]

theorem length_flatMap_toBits (numbers : List Nat) :
    (numbers.flatMap (toBits width)).length = width * numbers.length := by
  induction numbers with
  | nil => rfl
  | cons n numbers ih =>
    rw [flatMap_cons, length_append, length_toBits, ih, length_cons, Nat.mul_succ, Nat.add_comm]

end Groups

end SilFormal.BitStream
