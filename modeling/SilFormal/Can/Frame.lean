import Mathlib

/-!
# Operations and frames of the CAN model

The byte layouts of the FMI-LS-BUS operations that the bus model reads and
writes, and the length of a Classical CAN frame on the wire (`bus.cpp`).
`can::Nanoseconds` is `Int`: no instant of the model exceeds `maxTime` by more
than an intermission, so 64 bits hold all of them.
-/

namespace SilFormal.Can

/-- `can::Bytes`. -/
abbrev Bytes := List UInt8

abbrev terminalCapacity : Nat := 4
def maxQueueCapacity : Nat := 64
def maxFaultRules : Nat := 8
def maxFaultRetries : Nat := 4
def maxClassicalIdentifier : Nat := 0x7ff
def maxExtendedIdentifier : Nat := 0x1fffffff
def maxOperationBuffer : Nat := 2048
def minOperationBuffer : Nat := 64
def frameEndOutput : Nat := 12 + 24
def nsPerS : Nat := 1000000000
def minBitrate : Nat := 10000
def maxBitrate : Nat := 1000000
def intermissionBits : Nat := 3
def maxTime : Int := 2 ^ 50

instance terminalCapacityNeZero : NeZero terminalCapacity :=
  ⟨by decide⟩

/-- A terminal of the bus, by its zero-based index. -/
abbrev Terminal := Fin terminalCapacity

instance terminalLawfulBEq : LawfulBEq Terminal :=
  inferInstance

/-- `supported_bitrate`. -/
def supportedBitrate (rate : Nat) : Bool :=
  decide (minBitrate ≤ rate) && decide (rate ≤ maxBitrate) && nsPerS % rate == 0

/-! ## Reading operations -/

/-- The byte at an index; the callers have checked the length. -/
def byteAt (b : Bytes) (i : Nat) : Nat :=
  (b.getD i 0).toNat

/-- `u16`, little-endian. -/
def u16 (b : Bytes) (i : Nat) : Nat :=
  byteAt b i + byteAt b (i + 1) * 2 ^ 8

/-- `u32`, little-endian. -/
def u32 (b : Bytes) (i : Nat) : Nat :=
  byteAt b i + byteAt b (i + 1) * 2 ^ 8 + byteAt b (i + 2) * 2 ^ 16 + byteAt b (i + 3) * 2 ^ 24

def formatErrorCode : Nat := 0x01
def transmitCode : Nat := 0x10
def fdTransmitCode : Nat := 0x11
def xlTransmitCode : Nat := 0x12
def confirmCode : Nat := 0x20
def arbitrationLostCode : Nat := 0x30
def busErrorCode : Nat := 0x31
def configurationCode : Nat := 0x40
def statusCode : Nat := 0x41
def wakeupCode : Nat := 0x42
def bitrateKind : Nat := 1
def fdBitrateKind : Nat := 2
def xlBitrateKind : Nat := 3
def arbitrationLostBehaviorKind : Nat := 4
def bufferAndRetransmit : Nat := 1
def discardAndNotify : Nat := 2
def bitError : Nat := 0x01
def primaryErrorFlag : Nat := 0x01
def secondaryErrorFlag : Nat := 0x02

/-- `fd_data_length`. -/
def fdDataLength (length : Nat) : Bool :=
  decide (length ≤ 8) || length == 12 || length == 16 || length == 20 || length == 24 ||
    length == 32 || length == 48 || length == 64

/-- `with_data`: a fixed part, then data of the length at `i`. -/
def withData (op : Bytes) (fixed i : Nat) : Bool :=
  decide (fixed ≤ op.length) && op.length == fixed + u16 op i

/-- `booleans`: the bytes from `first` to `last` are 0 or 1. -/
def booleans (op : Bytes) (first last : Nat) : Bool :=
  ((op.drop first).take (last + 1 - first)).all fun value => decide (value.toNat ≤ 1)

/-- `identifier_fits`. -/
def identifierFits (op : Bytes) : Bool :=
  decide (u32 op 8 ≤ if byteAt op 12 = 1 then maxExtendedIdentifier
    else maxClassicalIdentifier)

/-- `well_formed`. -/
def wellFormed (op : Bytes) : Bool :=
  let code := u32 op 0
  if code = transmitCode then
    withData op 16 14 && decide (u16 op 14 ≤ 8) && booleans op 12 13 && identifierFits op
  else if code = fdTransmitCode then
    withData op 17 15 && fdDataLength (u16 op 15) && booleans op 12 14 && identifierFits op
  else if code = xlTransmitCode then
    withData op 22 20 && decide (1 ≤ u16 op 20) && booleans op 12 13 && identifierFits op
  else if code = formatErrorCode then withData op 10 8
  else if code = confirmCode ∨ code = arbitrationLostCode then op.length == 12
  else if code = busErrorCode then op.length == 15
  else if code = statusCode then op.length == 9
  else if code = wakeupCode then op.length == 8
  else if code = configurationCode then
    if op.length < 9 then false
    else if byteAt op 8 = bitrateKind ∨ byteAt op 8 = fdBitrateKind ∨
        byteAt op 8 = xlBitrateKind then op.length == 13
    else if byteAt op 8 = arbitrationLostBehaviorKind then
      op.length == 10 && (byteAt op 9 == bufferAndRetransmit || byteAt op 9 == discardAndNotify)
    else false
  else false

/-! ## Writing operations -/

def byte (n : Nat) : UInt8 :=
  UInt8.ofNat n

/-- `identifier_operation`. -/
def identifierOperation (code id : Nat) : Bytes :=
  [byte code, 0, 0, 0, 12, 0, 0, 0, byte id, byte (id >>> 8), 0, 0]

/-- `bus_error_operation`. -/
def busErrorOperation (id : Nat) (primary sender : Bool) : Bytes :=
  [byte busErrorCode, 0, 0, 0, 15, 0, 0, 0, byte id, byte (id >>> 8), 0, 0,
    byte bitError, byte (if primary then primaryErrorFlag else secondaryErrorFlag),
    byte sender.toNat]

/-- The header of a Format Error report on an operation. -/
def formatErrorHeader (op : Bytes) : Bytes :=
  [byte formatErrorCode, 0, 0, 0, byte (10 + op.length), byte ((10 + op.length) >>> 8), 0, 0,
    byte op.length, byte (op.length >>> 8)]

/-! ## The length of a frame -/

/-- The lowest `width` bits of a value, the highest of them first. -/
def bitsOf (value width : Nat) : List Bool :=
  (List.range width).reverse.map value.testBit

/-- One bit of the shift register of `crc15`. -/
def crcStep (crc : Nat) (bit : Bool) : Nat :=
  if bit != crc.testBit 14 then ((crc <<< 1) &&& 0x7fff) ^^^ 0x4599
  else (crc <<< 1) &&& 0x7fff

/-- `crc15`. -/
def crc15 (bits : List Bool) : Nat :=
  bits.foldl crcStep 0

/-- The variables of the loop of `stuff_bits`. -/
structure Stuffing where
  stuffed : Nat
  run : Nat
  last : Bool

/-- One bit of `stuff_bits`: a stuff bit counts towards the next run. -/
def Stuffing.step (s : Stuffing) (bit : Bool) : Stuffing :=
  let run := if bit = s.last then s.run + 1 else 1
  if run = 5 then ⟨s.stuffed + 1, 1, !bit⟩ else ⟨s.stuffed, run, bit⟩

/-- `stuff_bits`. -/
def stuffBits (bits : List Bool) : Nat :=
  (bits.foldl Stuffing.step ⟨0, 0, true⟩).stuffed

/-- SOF, identifier, RTR, IDE, r0, data length and data. -/
def frameContent (id : Nat) (data : Bytes) : List Bool :=
  false :: bitsOf id 11 ++ bitsOf 0 3 ++ bitsOf data.length 4 ++
    data.flatMap fun b => bitsOf b.toNat 8

/-- `frame_bits`. -/
def frameBits (id : Nat) (data : Bytes) : Nat :=
  let bits := frameContent id data ++ bitsOf (crc15 (frameContent id data)) 15
  bits.length + stuffBits bits + 1 + 1 + 1 + 7

/-- The frame of an empty data field with identifier 1 has 47 bits. -/
example : frameBits 1 [] = 47 := by decide +kernel

theorem frameBits_pos (id : Nat) (data : Bytes) : 0 < frameBits id data := by
  simp only [frameBits]
  omega

@[simp] theorem identifierOperation_length (code id : Nat) :
    (identifierOperation code id).length = 12 := rfl

@[simp] theorem busErrorOperation_length (id : Nat) (primary sender : Bool) :
    (busErrorOperation id primary sender).length = 15 := rfl

@[simp] theorem formatErrorHeader_length (op : Bytes) : (formatErrorHeader op).length = 10 := rfl

/-- What a well-formed Transmit operation looks like. -/
theorem wellFormed_transmit {op : Bytes} (h : wellFormed op = true)
    (hcode : u32 op 0 = transmitCode) :
    op.length = 16 + u16 op 14 ∧ u16 op 14 ≤ 8 ∧ identifierFits op = true := by
  simp only [wellFormed, if_pos hcode, withData, Bool.and_eq_true, decide_eq_true_eq,
    beq_iff_eq] at h
  exact ⟨h.1.1.1.2, h.1.1.2, h.2⟩

theorem bitTime_pos {rate : Nat} (h : supportedBitrate rate = true) : 0 < nsPerS / rate := by
  simp only [supportedBitrate, Bool.and_eq_true, decide_eq_true_eq] at h
  obtain ⟨⟨hmin, hmax⟩, _⟩ := h
  simp only [minBitrate] at hmin
  simp only [maxBitrate] at hmax
  refine Nat.div_pos ?_ (by omega)
  simp only [nsPerS]
  omega

end SilFormal.Can
