import Mathlib

/-!
# Little-endian integers

The number that bytes stand for, lowest byte first, unsigned and in two's
complement, and the bytes of a number.
-/

namespace SilFormal.LittleEndian

/-- The unsigned number of bytes, lowest first. -/
def toNat : List UInt8 → Nat
  | [] => 0
  | byte :: rest => byte.toNat + 256 * toNat rest

/-- The number of bytes in two's complement. -/
def toInt (bytes : List UInt8) : Int :=
  if 2 * toNat bytes < 256 ^ bytes.length then (toNat bytes : Int)
  else (toNat bytes : Int) - (256 ^ bytes.length : Nat)

/-- The lowest bytes of a number. -/
def ofNat (width value : Nat) : List UInt8 :=
  (List.range width).map fun i => UInt8.ofNat (value >>> (8 * i))

@[simp] theorem ofNat_length (width value : Nat) : (ofNat width value).length = width := by
  simp [ofNat]

theorem ofNat_succ (width value : Nat) :
    ofNat (width + 1) value = UInt8.ofNat value :: ofNat width (value / 256) := by
  rw [ofNat, List.range_succ_eq_map, List.map_cons, List.map_map]
  refine congrArg (UInt8.ofNat value :: ·) (List.map_congr_left fun i _ => ?_)
  have hshift : value >>> (8 * (i + 1)) = (value / 256) >>> (8 * i) := by
    rw [show 8 * (i + 1) = 8 + 8 * i by ring, Nat.shiftRight_add, Nat.shiftRight_eq_div_pow value]
  simp only [Function.comp_apply, hshift]

/-- The bytes of a number stand for it up to their width. -/
theorem toNat_ofNat (width value : Nat) : toNat (ofNat width value) = value % 256 ^ width := by
  induction width generalizing value with
  | zero => simp [ofNat, toNat, Nat.mod_one]
  | succ width ih =>
    rw [ofNat_succ, toNat, ih, Nat.pow_succ', Nat.mod_mul]
    simp

/-- A number in the range of its width is read back in two's complement from
the lowest bytes of any larger word it was reduced to. -/
theorem toInt_ofNat {width word : Nat} {value : Int} (hwidth : width ≤ word)
    (hlow : -(256 ^ width : Nat) ≤ 2 * value) (hhigh : 2 * value < (256 ^ width : Nat)) :
    toInt (ofNat width (value % (256 ^ word : Nat)).toNat) = value := by
  have hreduce : (toNat (ofNat width (value % (256 ^ word : Nat)).toNat) : Int) =
      value % (256 ^ width : Nat) := by
    have hdvd : ((256 ^ width : Nat) : Int) ∣ (256 ^ word : Nat) :=
      Int.natCast_dvd_natCast.mpr (pow_dvd_pow 256 hwidth)
    have hpos : ((256 ^ word : Nat) : Int) ≠ 0 :=
      Int.natCast_ne_zero.mpr (pow_ne_zero word (by decide))
    rw [toNat_ofNat, Int.natCast_mod, Int.toNat_of_nonneg (Int.emod_nonneg _ hpos),
      Int.emod_emod_of_dvd _ hdvd]
  generalize hlength : 256 ^ width = range at hlow hhigh hreduce
  simp only [toInt, ofNat_length]
  rcases Int.lt_or_le value 0 with hneg | hnonneg
  · have hmod : value % (range : Int) = value + range := by
      rw [← Int.add_emod_right, Int.emod_eq_of_lt (by omega) (by omega)]
    omega
  · have hmod : value % (range : Int) = value := Int.emod_eq_of_lt hnonneg (by omega)
    omega

end SilFormal.LittleEndian
