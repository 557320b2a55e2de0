import SilFormal.Can.Frame
import SilFormal.Library.BinaryPoly

/-!
# The length of a frame against the wire

`tests/wire.py` computes the length of a frame in another way: the CRC is the
remainder of a division of integers, and the stuff bits are inserted into the
sequence of bits.  Both computations are compared for every frame, through
what they compute: the remainder of polynomials over two elements, and an
insertion that a receiver undoes.
-/

namespace SilFormal.Can

variable {run : Nat} {out : List Bool} {last : Bool}

open BinaryPoly

namespace Wire

/-! ## The reference -/

/-- `CRC15`, by its degree and its other coefficients. -/
def generator : Generator where
  degree := 15
  low := 0x4599
  low_lt := by decide

/-- `f"{value:0{width}b}"`. -/
def format (width value : Nat) : List Bool :=
  let digits := if value = 0 then [false] else (List.range value.size).reverse.map value.testBit
  List.replicate (width - digits.length) false ++ digits

/-- `unstuffed`. -/
def unstuffed (identifier : Nat) (payload : Bytes) : List Bool :=
  [false] ++ format 11 identifier ++ [false, false, false] ++ format 4 payload.length ++
    payload.flatMap fun b => format 8 b.toNat

/-- `crc15`: each iteration of the loop clears the highest bit, so the number of
bits bounds the iterations. -/
def crc15 (bits : List Bool) : List Bool :=
  format 15 (generator.reduce (value bits <<< 15).size (value bits <<< 15))

/-- One bit of `stuff`. -/
def stuffStep (out : List Bool) (bit : Bool) : List Bool :=
  let out := out ++ [bit]
  if List.replicate 5 false <:+ out then out ++ [true]
  else if List.replicate 5 true <:+ out then out ++ [false]
  else out

/-- `stuff`. -/
def stuff (bits : List Bool) : List Bool :=
  bits.foldl stuffStep []

/-- `TRAILER`. -/
def trailer : Nat := 1 + 1 + 1 + 7

/-- `frame_bits`. -/
def frameBits (identifier : Nat) (payload : Bytes) : Nat :=
  let body := unstuffed identifier payload
  (stuff (body ++ crc15 body)).length + trailer

/-- The length of a run of equal bits after one more bit. -/
def nextRun (last : Bool) (run : Nat) (bit : Bool) : Nat :=
  if bit = last then run + 1 else 1

/-- A receiver removes the bit after five equal ones; it counts towards the
next run. -/
def destuff (last : Bool) (run : Nat) : List Bool → List Bool
  | [] => []
  | bit :: rest =>
    if run = 5 then destuff bit 1 rest else bit :: destuff bit (nextRun last run bit) rest

end Wire

open Wire

theorem generator_number : generator.number = 0xC599 := by decide

/-! ## The CRC -/

/-- The shift register computes the remainder of the message polynomial times
`X ^ 15`. -/
theorem crc15_spec (bits : List Bool) : crc15 bits < 2 ^ 15 ∧
      ofNat (crc15 bits) = (ofBits bits * Polynomial.X ^ 15) %ₘ generator.poly := by
  obtain ⟨hbound, hdvd⟩ := Generator.foldl_shift_spec (g := generator) (by decide) bits
  exact ⟨hbound, (generator.modByMonic_eq hdvd hbound).symm⟩

theorem reduce_eq_crc15 (bits : List Bool) :
    generator.reduce (value bits <<< 15).size (value bits <<< 15) = crc15 bits := by
  obtain ⟨hbound, hdvd⟩ := generator.reduce_spec (le_refl (value bits <<< 15).size)
  refine ofNat_injective ?_
  rw [(crc15_spec bits).2, ← generator.modByMonic_eq hdvd hbound, ofNat_shiftLeft, ofNat_value]

/-! ## The bits of a number -/

theorem bitsOf_succ (value width : Nat) :
    bitsOf value (width + 1) = value.testBit width :: bitsOf value width := by
  simp [bitsOf, List.range_succ]

theorem bitsOf_of_size_le {value width : Nat} (h : value.size ≤ width) :
    bitsOf value width = List.replicate (width - value.size) false ++ bitsOf value value.size := by
  induction width, h using Nat.le_induction with
  | base => simp
  | succ width hle ih =>
    have hbit : value.testBit width = false :=
      Nat.testBit_eq_false_of_lt (Nat.size_le.mp hle)
    rw [bitsOf_succ, hbit, ih, Nat.succ_sub hle]
    rfl

theorem format_eq_bitsOf {width value : Nat} (hwidth : 0 < width) (h : value < 2 ^ width) :
    format width value = bitsOf value width := by
  rw [bitsOf_of_size_le (Nat.size_le.mpr h)]
  by_cases hzero : value = 0
  · subst hzero
    obtain ⟨places, rfl⟩ : ∃ places, width = places + 1 := ⟨width - 1, by omega⟩
    simp [format, bitsOf, List.replicate_succ']
  · simp [format, hzero, bitsOf]

theorem unstuffed_eq {id : Nat} {data : Bytes} (hid : id < 2 ^ 11) (hdata : data.length ≤ 8) :
    unstuffed id data = frameContent id data := by
  have hbytes : ∀ b : UInt8, format 8 b.toNat = bitsOf b.toNat 8 := fun b =>
    format_eq_bitsOf (by decide) b.toNat_lt
  simp only [unstuffed, format_eq_bitsOf (by decide : 0 < 11) hid,
    format_eq_bitsOf (by decide : 0 < 4) (show data.length < 2 ^ 4 by omega), hbytes]
  rfl

/-! ## Stuff bits -/

/-- The length of the run of equal bits at the end of a sequence. -/
def Ends (out : List Bool) (last : Bool) (run : Nat) : Prop :=
  ∀ k b, List.replicate k b <:+ out ↔ k = 0 ∨ b = last ∧ k ≤ run

theorem nextRun_le (last : Bool) (h : run ≤ 4) (bit : Bool) : nextRun last run bit ≤ 5 := by
  rw [nextRun]
  split <;> omega

theorem ends_nil (last : Bool) : Ends [] last 0 := by
  intro k b
  rw [List.suffix_nil, List.replicate_eq_nil_iff]
  omega

theorem replicate_suffix_concat {k : Nat} {b bit : Bool} :
    List.replicate (k + 1) b <:+ out ++ [bit] ↔ b = bit ∧ List.replicate k b <:+ out := by
  rw [List.replicate_succ', List.suffix_concat_iff]
  constructor
  · rintro (hnil | ⟨front, heq, hsuffix⟩)
    · simp at hnil
    · obtain ⟨hfront, hlast⟩ := List.append_inj' heq rfl
      rw [List.cons.injEq] at hlast
      exact ⟨hlast.1, hfront ▸ hsuffix⟩
  · rintro ⟨rfl, hsuffix⟩
    exact .inr ⟨_, rfl, hsuffix⟩

theorem Ends.concat (h : Ends out last run) (bit : Bool) :
    Ends (out ++ [bit]) bit (nextRun last run bit) := by
  intro k b
  cases k with
  | zero => simp
  | succ k =>
    rw [replicate_suffix_concat, h k b, nextRun]
    by_cases hb : b = bit
    · subst hb
      by_cases hlast : b = last
      · simp only [hlast, true_and, if_true]
        omega
      · simp [hlast]
    · simp [hb]

/-- The stuffed bits from a point on at which a run has a length. -/
def inserted (last : Bool) (run : Nat) : List Bool → List Bool
  | [] => []
  | bit :: rest =>
    if nextRun last run bit = 5 then bit :: (!bit) :: inserted (!bit) 1 rest
    else bit :: inserted bit (nextRun last run bit) rest

/-- Whether five equal bits are at the end shows in the length of the run. -/
theorem stuffStep_eq (h : Ends out last run) (hrun : run ≤ 4) (bit : Bool) : stuffStep out bit =
      if nextRun last run bit = 5 then out ++ [bit, !bit] else out ++ [bit] := by
  have hle := nextRun_le last hrun bit
  have hreached : 5 ≤ nextRun last run bit ↔ nextRun last run bit = 5 := by omega
  have hfive : ∀ b, List.replicate 5 b <:+ out ++ [bit] ↔ b = bit ∧ nextRun last run bit = 5 := by
    intro b
    rw [h.concat bit 5 b, hreached]
    simp
  simp only [stuffStep, hfive]
  by_cases hrun5 : nextRun last run bit = 5
  · cases bit <;> simp [hrun5]
  · simp [hrun5]

/-- What the literal insertion appends: by induction on the bits, with the run
at the end of what is there. -/
theorem foldl_stuffStep (h : Ends out last run) (hrun : run ≤ 4) (bits : List Bool) :
    bits.foldl stuffStep out = out ++ inserted last run bits := by
  induction bits generalizing out last run with
  | nil => simp [inserted]
  | cons bit rest ih =>
    have hends := h.concat bit
    rw [List.foldl_cons, stuffStep_eq h hrun, inserted]
    by_cases hfive : nextRun last run bit = 5
    · rw [if_pos hfive, if_pos hfive]
      have hnext := hends.concat (!bit)
      rw [nextRun, if_neg (by simp)] at hnext
      rw [List.append_assoc] at hnext
      rw [show out ++ [bit, !bit] = out ++ ([bit] ++ [!bit]) from rfl, ih hnext (by decide)]
      simp
    · rw [if_neg hfive, if_neg hfive]
      have hle := nextRun_le last hrun bit
      rw [ih hends (by omega)]
      simp

theorem stuff_eq (bits : List Bool) : stuff bits = inserted true 0 bits :=
  foldl_stuffStep (ends_nil true) (by decide) bits

/-- The counting loop counts the inserted bits. -/
theorem inserted_length (last : Bool) (run stuffed : Nat) (bits : List Bool) :
    (inserted last run bits).length + stuffed =
      bits.length + (bits.foldl Stuffing.step ⟨stuffed, run, last⟩).stuffed := by
  induction bits generalizing last run stuffed with
  | nil => simp [inserted]
  | cons bit rest ih =>
    rw [List.foldl_cons, inserted, Stuffing.step]
    by_cases hfive : nextRun last run bit = 5
    · have hstep := ih (!bit) 1 (stuffed + 1)
      rw [nextRun] at hfive
      simp only [nextRun, hfive, if_true, List.length_cons] at hstep ⊢
      omega
    · have hstep := ih bit (nextRun last run bit) stuffed
      rw [nextRun] at hfive hstep
      simp only [nextRun, hfive, if_false, List.length_cons] at hstep ⊢
      omega

/-- A receiver gets back what was stuffed. -/
theorem destuff_inserted (hrun : run ≤ 4) (bits : List Bool) :
    destuff last run (inserted last run bits) = bits := by
  induction bits generalizing last run with
  | nil => rfl
  | cons bit rest ih =>
    have hle := nextRun_le last hrun bit
    rw [inserted]
    by_cases hfive : nextRun last run bit = 5
    · rw [if_pos hfive, destuff, if_neg (by omega), hfive, destuff, if_pos rfl, ih (by decide)]
    · rw [if_neg hfive, destuff, if_neg (by omega), ih (by omega)]

/-- No bit is repeated six times in a row. -/
def NoSix (bits : List Bool) : Prop :=
  ∀ b, ¬ List.replicate 6 b <:+: bits

theorem NoSix.concat (h : NoSix out) (hends : Ends out last run) {bit : Bool}
    (hrun : nextRun last run bit ≤ 5) : NoSix (out ++ [bit]) := by
  intro b hinfix
  rcases List.infix_concat_iff.mp hinfix with hsuffix | hinfix
  · rcases (hends.concat bit 6 b).mp hsuffix with hzero | ⟨_, hsix⟩ <;> omega
  · exact h b hinfix

/-- Stuffing keeps every run below six, by induction on the bits. -/
theorem noSix_inserted (h : Ends out last run) (hrun : run ≤ 4) (hsix : NoSix out)
    (bits : List Bool) : NoSix (out ++ inserted last run bits) := by
  induction bits generalizing out last run with
  | nil => simpa [inserted] using hsix
  | cons bit rest ih =>
    have hle := nextRun_le last hrun bit
    have hends := h.concat bit
    have hnoSix := hsix.concat h hle
    rw [inserted]
    by_cases hfive : nextRun last run bit = 5
    · have hone : nextRun bit (nextRun last run bit) (!bit) = 1 := by simp [nextRun]
      have hrest := ih (hone ▸ hends.concat (!bit)) (by decide)
        (hnoSix.concat hends (by omega))
      simpa [hfive] using hrest
    · have hrest := ih hends (by omega) hnoSix
      simpa [hfive] using hrest

/-! ## Frames -/

/-- SOF to CRC, as `frame_bits` sends them to the wire. -/
def sofToCrc (id : Nat) (data : Bytes) : List Bool :=
  frameContent id data ++ bitsOf (crc15 (frameContent id data)) 15

/-- The length of every frame is the one of the reference.  The CRC is the
remainder of the message polynomial times `X ^ 15` by the generator of CAN, and
the stuff bits are those of literal stuffing, for every sequence of bits; the
stuffed frame has no run of six equal bits, and a receiver gets the frame back
from it. -/
theorem frameBits_eq_wire (id : Nat) (data : Bytes) (hid : id < 2 ^ 11) (hdata : data.length ≤ 8) :
    frameBits id data = Wire.frameBits id data ∧
      (∀ bits, ofNat (crc15 bits) = (ofBits bits * Polynomial.X ^ 15) %ₘ ofNat 0xC599) ∧
      (∀ bits, (stuff bits).length = bits.length + stuffBits bits) ∧
      NoSix (stuff (sofToCrc id data)) ∧
      destuff true 0 (stuff (sofToCrc id data)) = sofToCrc id data := by
  have hlength : ∀ bits, (stuff bits).length = bits.length + stuffBits bits := by
    intro bits
    rw [stuff_eq]
    exact inserted_length true 0 0 bits
  refine ⟨?_, fun bits => ?_, hlength, ?_, ?_⟩
  · have hcrc : Wire.crc15 (frameContent id data) = bitsOf (crc15 (frameContent id data)) 15 := by
      rw [Wire.crc15, reduce_eq_crc15, format_eq_bitsOf (by decide) (crc15_spec _).1]
    rw [Wire.frameBits, unstuffed_eq hid hdata, hcrc, hlength, frameBits, trailer]
  · rw [← generator_number, generator.ofNat_number]
    exact (crc15_spec bits).2
  · rw [stuff_eq]
    exact noSix_inserted (ends_nil true) (by decide) (fun b hinfix => by simp at hinfix)
      (sofToCrc id data)
  · rw [stuff_eq]
    exact destuff_inserted (by decide) _

/-- The longest run of a frame is cut by stuff bits. -/
theorem frameBits_eq_wire_zero :
    frameBits 0 [0, 0] = Wire.frameBits 0 [0, 0] ∧ NoSix (stuff (sofToCrc 0 [0, 0])) ∧
      destuff true 0 (stuff (sofToCrc 0 [0, 0])) = sofToCrc 0 [0, 0] := by
  obtain ⟨hlength, _, _, hnoSix, hdestuff⟩ := frameBits_eq_wire 0 [0, 0] (by decide) (by decide)
  exact ⟨hlength, hnoSix, hdestuff⟩

end SilFormal.Can
