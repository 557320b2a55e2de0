import SilFormal.Library.BitStream
import SilFormal.Library.Fallible

/-!
# Inline payloads of the Step protocol

A Message that is in no Arena slot travels in the Step line as base64
(`process_participant.cpp`).  The kernel adds up the sizes of a reply's inline
payloads from the lengths of their texts, before it decodes them.

The standard text of a payload regroups its bits from eight to six.  Decoding
regroups the bits of the characters in front of the first `=` from six to eight,
and the accumulator of its loop holds the bits of the byte that is not full yet.
-/

namespace SilFormal.Protocol

open BitStream List

variable {acc : UInt32} {bits : Nat} {text : List UInt8}

def kB64 : List UInt8 :=
  "ABCDEFGHIJKLMNOPQRSTUVWXYZabcdefghijklmnopqrstuvwxyz0123456789+/".toList.map
    fun c => c.toNat.toUInt8

/-- The character `=`. -/
def pad : UInt8 :=
  61

/-- `kB64[index]`. -/
def symbol (index : Nat) : UInt8 :=
  kB64.getD index 0

def b64Encode : List UInt8 → List UInt8
  | [] => []
  | [a] =>
    let v := a.toUInt32 <<< 16
    [symbol (v >>> 18).toNat, symbol ((v >>> 12) &&& 63).toNat, pad, pad]
  | [a, b] =>
    let v := a.toUInt32 <<< 16 ||| b.toUInt32 <<< 8
    [symbol (v >>> 18).toNat, symbol ((v >>> 12) &&& 63).toNat,
      symbol ((v >>> 6) &&& 63).toNat, pad]
  | a :: b :: c :: rest =>
    let v := a.toUInt32 <<< 16 ||| b.toUInt32 <<< 8 ||| c.toUInt32
    symbol (v >>> 18).toNat :: symbol ((v >>> 12) &&& 63).toNat ::
      symbol ((v >>> 6) &&& 63).toNat :: symbol (v &&& 63).toNat :: b64Encode rest

/-- The table of `b64_value`, filled from the alphabet. -/
def b64Table : List Int :=
  (List.range 64).foldl (fun table i => table.set (symbol i).toNat (i : Int))
    (List.replicate 256 (-1))

def b64Value (ch : UInt8) : Int :=
  b64Table.getD ch.toNat (-1)

def b64DecodedSize (text : List UInt8) : Nat :=
  let chars := text.findIdx (· == pad)
  chars / 4 * 3 + chars % 4 * 3 / 4

def invalidBase64 : String :=
  "invalid base64 in participant message"

/-- The loop of `b64_decode`. -/
def b64DecodeFrom : List UInt8 → UInt32 → Nat → List UInt8 → Except String (List UInt8)
  | [], _, _, out => .ok out
  | ch :: rest, acc, bits, out =>
    if ch = pad then
      .ok out
    else
      let v := b64Value ch
      if v < 0 then
        .error invalidBase64
      else
        let acc := acc <<< 6 ||| v.toNat.toUInt32
        let bits := bits + 6
        if 8 ≤ bits then
          b64DecodeFrom rest acc (bits - 8) (out ++ [(acc >>> (bits - 8).toUInt32).toUInt8])
        else
          b64DecodeFrom rest acc bits out

def b64Decode (text : List UInt8) : Except String (List UInt8) :=
  b64DecodeFrom text 0 0 []

/-! ## The standard text -/

/-- The bits of a payload. -/
def payloadBits (payload : List UInt8) : List Bool :=
  (payload.map UInt8.toNat).flatMap (toBits 8)

/-- The bits, with zeros up to a full group of six. -/
def filled (bits : List Bool) : List Bool :=
  bits ++ List.replicate ((6 - bits.length % 6) % 6) false

/-- The standard base64 text of a payload: a character for every six bits, the
last ones filled up with zeros, and padding to a multiple of four characters. -/
def standardText (payload : List UInt8) : List UInt8 :=
  let characters := (groups 6 (filled (payloadBits payload))).map symbol
  characters ++ List.replicate ((4 - characters.length % 4) % 4) pad

/-! ## The alphabet -/

theorem b64Value_symbol {i : Nat} (h : i < 64) : b64Value (symbol i) = (i : Int) := by
  revert i
  decide +kernel

theorem symbol_ne_pad {i : Nat} (h : i < 64) : symbol i ≠ pad := by
  revert i
  decide +kernel

theorem b64Value_lt (ch : UInt8) : (b64Value ch).toNat < 64 := by
  have hall : ∀ n < 256, (b64Table.getD n (-1)).toNat < 64 := by
    decide +kernel
  exact hall ch.toNat ch.toNat_lt

/-! ## The accumulator of the decoder -/

/-- Shifting a sextet in appends its bits. -/
theorem toBits_shiftIn {v : Nat} (hv : v < 64) (hbits : bits ≤ 26) :
    toBits (bits + 6) (acc <<< 6 ||| v.toUInt32).toNat = toBits bits acc.toNat ++ toBits 6 v := by
  have hsextet : v.toUInt32.toNat = v := by
    rw [UInt32.toNat_ofNat']
    omega
  have hacc : ∀ i, (acc <<< 6 ||| v.toUInt32).toNat.testBit i =
      ((decide (i < 32) && (decide (6 ≤ i) && acc.toNat.testBit (i - 6))) || v.testBit i) := by
    intro i
    rw [UInt32.toNat_or, UInt32.toNat_shiftLeft, Nat.testBit_or, hsextet,
      Nat.testBit_mod_two_pow, show (6 : UInt32).toNat % 32 = 6 from rfl, Nat.testBit_shiftLeft]
  have hhigh : ∀ i, 6 ≤ i → v.testBit i = false := by
    intro i hi
    have hpow : 2 ^ 6 ≤ 2 ^ i := Nat.pow_le_pow_right Nat.two_pos hi
    exact Nat.testBit_lt_two_pow (hv.trans_le hpow)
  rw [toBits_add]
  refine congrArg₂ _ (toBits_congr fun i hi => ?_) (toBits_congr fun i hi => ?_)
  · rw [Nat.testBit_shiftRight, hacc, hhigh _ (Nat.le_add_right 6 i)]
    simp [show 6 + i < 32 by omega]
  · rw [hacc]
    simp [show ¬ 6 ≤ i by omega]

/-- The sextets of a text, up to its first `=`. -/
def sextets (text : List UInt8) : List Nat :=
  (text.takeWhile (· ≠ pad)).map fun ch => (b64Value ch).toNat

/-- Every character in front of the first `=` is in the alphabet. -/
def Accepted (text : List UInt8) : Prop :=
  ∀ ch ∈ text.takeWhile (· ≠ pad), 0 ≤ b64Value ch

theorem sextets_cons {ch : UInt8} {rest : List UInt8} (h : ch ≠ pad) :
    sextets (ch :: rest) = (b64Value ch).toNat :: sextets rest := by
  simp [sextets, h]

theorem accepted_cons_iff {ch : UInt8} {rest : List UInt8} (h : ch ≠ pad) :
    Accepted (ch :: rest) ↔ 0 ≤ b64Value ch ∧ Accepted rest := by
  simp [Accepted, h]

theorem toUInt8_shiftRight (h : bits < 32) :
    (acc >>> bits.toUInt32).toUInt8 = (ofBits (toBits 8 (acc.toNat >>> bits))).toUInt8 := by
  have hbits : bits.toUInt32.toNat % 32 = bits := by
    rw [UInt32.toNat_ofNat']
    omega
  apply UInt8.toNat_inj.mp
  rw [UInt32.toNat_toUInt8, UInt32.toNat_shiftRight, hbits, ofBits_toBits,
    UInt8.toNat_ofNat', Nat.mod_mod]

/-- The loop of the decoder: the bits that the accumulator has, in front of those
of the characters still to come. -/
theorem b64DecodeFrom_of_accepted (h : Accepted text) (hbits : bits < 8) (out : List UInt8) :
    b64DecodeFrom text acc bits out =
      .ok (out ++ (groups 8 (toBits bits acc.toNat ++ (sextets text).flatMap (toBits 6))).map
        Nat.toUInt8) := by
  induction text generalizing acc bits out with
  | nil =>
    rw [b64DecodeFrom, groups_of_lt (by simpa [sextets] using hbits)]
    simp
  | cons ch rest ih =>
    by_cases hpad : ch = pad
    · rw [b64DecodeFrom, if_pos hpad, groups_of_lt (by simpa [sextets, hpad] using hbits)]
      simp
    obtain ⟨hvalue, hrest⟩ := (accepted_cons_iff hpad).mp h
    have hsextet := b64Value_lt ch
    rw [b64DecodeFrom, if_neg hpad, if_neg (not_lt.mpr hvalue), sextets_cons hpad,
      flatMap_cons, ← append_assoc, ← toBits_shiftIn hsextet (by omega)]
    by_cases hfull : 8 ≤ bits + 6
    · have hsplit := toBits_add 8 (bits + 6 - 8)
        (acc <<< 6 ||| (b64Value ch).toNat.toUInt32).toNat
      rw [show 8 + (bits + 6 - 8) = bits + 6 by omega] at hsplit
      rw [if_pos hfull, ih hrest (by omega), hsplit, append_assoc (toBits 8 _),
        groups_append Nat.succ_pos' (length_toBits _ _), map_cons,
        toUInt8_shiftRight (by omega), append_assoc, singleton_append]
    · rw [if_neg hfull, ih hrest (by omega)]

theorem b64DecodeFrom_of_not_accepted (h : ¬ Accepted text) (acc : UInt32) (bits : Nat)
    (out : List UInt8) : b64DecodeFrom text acc bits out = .error invalidBase64 := by
  induction text generalizing acc bits out with
  | nil => exact absurd (by simp [Accepted]) h
  | cons ch rest ih =>
    have hpad : ch ≠ pad := by
      rintro rfl
      exact h (by simp [Accepted])
    rw [accepted_cons_iff hpad] at h
    rw [b64DecodeFrom, if_neg hpad]
    by_cases hvalue : 0 ≤ b64Value ch
    · rw [if_neg (not_lt.mpr hvalue)]
      have hrest : ¬ Accepted rest := fun hrest => h ⟨hvalue, hrest⟩
      dsimp only
      split_ifs
      · exact ih hrest _ _ _
      · exact ih hrest _ _ _
    · rw [if_pos (not_le.mp hvalue)]

/-- The decoder regroups the bits of the characters from six to eight. -/
theorem b64Decode_eq_ok_iff {out : List UInt8} : b64Decode text = .ok out ↔
      Accepted text ∧ out = (groups 8 ((sextets text).flatMap (toBits 6))).map Nat.toUInt8 := by
  by_cases h : Accepted text
  · rw [b64Decode, b64DecodeFrom_of_accepted h (by decide),
      show toBits 0 (UInt32.toNat 0) = [] from rfl]
    simp [h, eq_comm]
  · rw [b64Decode, b64DecodeFrom_of_not_accepted h]
    simp [h]

theorem findIdx_pad (text : List UInt8) : text.findIdx (· == pad) = (sextets text).length := by
  induction text with
  | nil => rfl
  | cons ch rest ih =>
    by_cases hpad : ch = pad
    · simp [findIdx_cons, sextets, hpad]
    · have hother : (ch == pad) = false := beq_false_of_ne hpad
      rw [findIdx_cons, hother, sextets_cons hpad, length_cons, ← ih]
      rfl

theorem b64DecodedSize_eq {out : List UInt8} (h : b64Decode text = .ok out) :
    b64DecodedSize text = out.length := by
  obtain ⟨-, rfl⟩ := b64Decode_eq_ok_iff.mp h
  rw [length_map, length_groups, length_flatMap_toBits, b64DecodedSize, findIdx_pad]
  omega

/-! ## Encoding -/

/-- A standard text decodes to its payload. -/
theorem b64Decode_standardText (payload : List UInt8) :
    b64Decode (standardText payload) = .ok payload := by
  have hnumbers : ∀ n ∈ groups 6 (filled (payloadBits payload)), n < 64 := by
    intro n hn
    obtain ⟨k, -, rfl⟩ := mem_map.mp hn
    refine (ofBits_lt _).trans_le ?_
    exact Nat.pow_le_pow_right Nat.two_pos (length_take_le _ _)
  have hcharacters : (standardText payload).takeWhile (· ≠ pad) =
      (groups 6 (filled (payloadBits payload))).map symbol := by
    rw [standardText, takeWhile_append_of_pos]
    · cases (4 - ((groups 6 (filled (payloadBits payload))).map symbol).length % 4) % 4 with
      | zero => simp
      | succ k => simp [replicate_succ]
    · intro ch hch
      obtain ⟨n, hn, rfl⟩ := mem_map.mp hch
      simpa using symbol_ne_pad (hnumbers n hn)
  have haccepted : Accepted (standardText payload) := by
    intro ch hch
    rw [hcharacters] at hch
    obtain ⟨n, hn, rfl⟩ := mem_map.mp hch
    rw [b64Value_symbol (hnumbers n hn)]
    exact Int.natCast_nonneg n
  have hsextets : sextets (standardText payload) = groups 6 (filled (payloadBits payload)) := by
    rw [sextets, hcharacters, map_map]
    refine (map_congr_left fun n hn => ?_).trans (map_id _)
    rw [Function.comp_apply, b64Value_symbol (hnumbers n hn), Int.toNat_natCast, id]
  have hfull : 6 ∣ (filled (payloadBits payload)).length := by
    rw [filled, length_append, length_replicate]
    omega
  refine b64Decode_eq_ok_iff.mpr ⟨haccepted, ?_⟩
  rw [hsextets, flatMap_groups (by decide) hfull, filled, payloadBits,
    groups_flatMap (by decide) ?_ ?_, map_map]
  · exact (map_id _).symm.trans (map_congr_left fun b _ => by simp)
  · intro n hn
    obtain ⟨b, -, rfl⟩ := mem_map.mp hn
    exact b.toNat_lt
  · rw [length_replicate]
    omega

/-- Three bytes in one word. -/
def word (a b c : UInt8) : UInt32 :=
  a.toUInt32 <<< 16 ||| b.toUInt32 <<< 8 ||| c.toUInt32

theorem testBit_byte (b : UInt8) {i : Nat} (h : 8 ≤ i) : b.toNat.testBit i = false :=
  Nat.testBit_lt_two_pow (b.toNat_lt.trans_le (Nat.pow_le_pow_right Nat.two_pos h))

theorem testBit_word (a b c : UInt8) (i : Nat) : (word a b c).toNat.testBit i =
      ((decide (i < 32) && (decide (16 ≤ i) && a.toNat.testBit (i - 16)) ||
        decide (i < 32) && (decide (8 ≤ i) && b.toNat.testBit (i - 8))) || c.toNat.testBit i) := by
  rw [word, UInt32.toNat_or, UInt32.toNat_or, UInt32.toNat_shiftLeft, UInt32.toNat_shiftLeft,
    Nat.testBit_or, Nat.testBit_or, Nat.testBit_mod_two_pow, Nat.testBit_mod_two_pow,
    show (16 : UInt32).toNat % 32 = 16 from rfl, show (8 : UInt32).toNat % 32 = 8 from rfl,
    Nat.testBit_shiftLeft, Nat.testBit_shiftLeft, UInt8.toNat_toUInt32, UInt8.toNat_toUInt32,
    UInt8.toNat_toUInt32]

theorem toBits_word (a b c : UInt8) : toBits 24 (word a b c).toNat =
      toBits 8 a.toNat ++ (toBits 8 b.toNat ++ toBits 8 c.toNat) := by
  rw [show 24 = 8 + (8 + 8) from rfl, toBits_add 8, toBits_add 8 8]
  refine congrArg₂ _ (toBits_congr fun i hi => ?_)
    (congrArg₂ _ (toBits_congr fun i hi => ?_) (toBits_congr fun i hi => ?_))
  · rw [Nat.testBit_shiftRight, testBit_word, testBit_byte b (by omega), testBit_byte c (by omega)]
    simp [show 8 + 8 + i < 32 by omega]
  · rw [Nat.testBit_shiftRight, testBit_word, testBit_byte c (by omega)]
    simp [show 8 + i < 32 by omega, show ¬ 16 ≤ 8 + i by omega]
  · rw [testBit_word]
    simp [show ¬ 16 ≤ i by omega, show ¬ 8 ≤ i by omega]

/-- The four sextets that the encoder looks up. -/
def sextetsOf (v : UInt32) : List Nat :=
  [(v >>> 18).toNat, ((v >>> 12) &&& 63).toNat, ((v >>> 6) &&& 63).toNat, (v &&& 63).toNat]

theorem toBits_and_63 (v : UInt32) : toBits 6 (v &&& 63).toNat = toBits 6 v.toNat := by
  refine toBits_congr fun i hi => ?_
  rw [UInt32.toNat_and, show (63 : UInt32).toNat = 2 ^ 6 - 1 from rfl,
    Nat.and_two_pow_sub_one_eq_mod, Nat.testBit_mod_two_pow]
  simp [hi]

theorem flatMap_sextetsOf (v : UInt32) : (sextetsOf v).flatMap (toBits 6) = toBits 24 v.toNat := by
  simp only [sextetsOf, flatMap_cons, toBits_and_63]
  rfl

theorem sextetsOf_word_lt (a b c : UInt8) : ∀ n ∈ sextetsOf (word a b c), n < 64 := by
  have hmask : ∀ v : UInt32, (v &&& 63).toNat < 64 := by
    intro v
    exact Nat.lt_succ_of_le Nat.and_le_right
  have hword : (word a b c).toNat < 2 ^ 24 := by
    refine Nat.lt_pow_two_of_testBit _ fun i hi => ?_
    rw [testBit_word, testBit_byte a (by omega), testBit_byte b (by omega),
      testBit_byte c (by omega)]
    simp
  intro n hn
  simp only [sextetsOf, mem_cons, not_mem_nil, or_false] at hn
  rcases hn with rfl | rfl | rfl | rfl
  · rw [UInt32.toNat_shiftRight, Nat.shiftRight_eq_div_pow]
    exact Nat.div_lt_of_lt_mul hword
  · exact hmask _
  · exact hmask _
  · exact hmask _

theorem payloadBits_cons (b : UInt8) (rest : List UInt8) :
    payloadBits (b :: rest) = toBits 8 b.toNat ++ payloadBits rest := by
  simp [payloadBits]

/-- Three more bytes are four more characters. -/
theorem standardText_cons (a b c : UInt8) (rest : List UInt8) : standardText (a :: b :: c :: rest) =
      (sextetsOf (word a b c)).map symbol ++ standardText rest := by
  have hbits : payloadBits (a :: b :: c :: rest) =
      (sextetsOf (word a b c)).flatMap (toBits 6) ++ payloadBits rest := by
    rw [flatMap_sextetsOf, toBits_word, payloadBits_cons, payloadBits_cons, payloadBits_cons]
    simp only [append_assoc]
  have hlength : ((sextetsOf (word a b c)).flatMap (toBits 6)).length = 24 := by
    rw [flatMap_sextetsOf, length_toBits]
  have hfilled : filled (payloadBits (a :: b :: c :: rest)) =
      (sextetsOf (word a b c)).flatMap (toBits 6) ++ filled (payloadBits rest) := by
    rw [filled, filled, hbits, length_append, hlength, append_assoc,
      show (24 + (payloadBits rest).length) % 6 = (payloadBits rest).length % 6 by omega]
  have hgroups : groups 6 (filled (payloadBits (a :: b :: c :: rest))) =
      sextetsOf (word a b c) ++ groups 6 (filled (payloadBits rest)) := by
    rw [hfilled]
    exact groups_flatMap_append (by decide) (sextetsOf_word_lt a b c) _
  rw [standardText, standardText, hgroups]
  simp only [map_append, length_append, append_assoc, length_map]
  rw [show (sextetsOf (word a b c)).length = 4 from rfl, Nat.add_mod_left]

/-- The one or two bytes at the end, as the characters of a word with zeros. -/
theorem standardText_tail {payload : List UInt8} {v : UInt32} {count : Nat}
    (hv : ∀ n ∈ sextetsOf v, n < 64) (hcount : count ≤ 4)
    (hfilled : filled (payloadBits payload) = ((sextetsOf v).take count).flatMap (toBits 6)) :
    standardText payload =
      ((sextetsOf v).take count).map symbol ++ List.replicate ((4 - count % 4) % 4) pad := by
  have hlt : ∀ n ∈ (sextetsOf v).take count, n < 2 ^ 6 :=
    fun n hn => hv n (mem_of_mem_take hn)
  have hgroups : groups 6 (filled (payloadBits payload)) = (sextetsOf v).take count := by
    have hflat := groups_flatMap_append (by decide) hlt []
    rwa [append_nil, groups_nil, append_nil, ← hfilled] at hflat
  have hlength : ((sextetsOf v).take count).length = count := by
    rw [length_take]
    exact Nat.min_eq_left hcount
  rw [standardText, hgroups, length_map, hlength]

theorem take_bits_word (a b c : UInt8) (count : Nat) :
    ((sextetsOf (word a b c)).take count).flatMap (toBits 6) =
      (toBits 8 a.toNat ++ (toBits 8 b.toNat ++ toBits 8 c.toNat)).take (6 * count) := by
  rw [← take_flatMap_toBits, flatMap_sextetsOf, toBits_word]

/-- The encoder writes the standard text. -/
theorem b64Encode_eq_standardText (payload : List UInt8) :
    b64Encode payload = standardText payload := by
  induction payload using b64Encode.induct with
  | case1 => rfl
  | case2 a =>
    have hword : a.toUInt32 <<< 16 = word a 0 0 := by simp [word]
    have hfilled : filled (payloadBits [a]) =
        ((sextetsOf (word a 0 0)).take 2).flatMap (toBits 6) := by
      rw [take_bits_word, take_append]
      simp [filled, payloadBits, toBits_zero]
    rw [standardText_tail (sextetsOf_word_lt a 0 0) (by decide) hfilled, b64Encode, hword]
    rfl
  | case3 a b =>
    have hword : a.toUInt32 <<< 16 ||| b.toUInt32 <<< 8 = word a b 0 := by simp [word]
    have hfilled : filled (payloadBits [a, b]) =
        ((sextetsOf (word a b 0)).take 3).flatMap (toBits 6) := by
      rw [take_bits_word, ← append_assoc, take_append, length_append,
        take_of_length_le (by rw [length_append, length_toBits, length_toBits]; decide)]
      simp [filled, payloadBits, toBits_zero]
    rw [standardText_tail (sextetsOf_word_lt a b 0) (by decide) hfilled, b64Encode, hword]
    rfl
  | case4 a b c rest ih =>
    rw [standardText_cons, ← ih]
    rfl

/-! ## The inline payloads of a reply -/

/-- A member of an item in a reply, as far as the codec reads it. -/
inductive Member
  | text (bytes : List UInt8)
  | other

/-- An item of the outputs of a reply. -/
abbrev OutputItem := List (String × Member)

/-- A Run failure, or an item without a member or with one that is no text. -/
inductive StepError
  | run (message : String)
  | missing (key : String)
  | notText (key : String)
  deriving DecidableEq, Repr

namespace OutputItem

/-- `item.at(key)` as a string. -/
def textAt (item : OutputItem) (key : String) : Except StepError (List UInt8) :=
  match item.lookup key with
  | none => .error (.missing key)
  | some (.text bytes) => .ok bytes
  | some .other => .error (.notText key)

/-- The field on the line is authoritative. -/
def isInline (item : OutputItem) : Bool :=
  (item.lookup "shm_seq").isNone

/-- `InlineAdapter::decoded_size`. -/
def decodedSize (item : OutputItem) : Except StepError Nat :=
  (item.textAt "data").map b64DecodedSize

/-- `InlineAdapter::decode`. -/
def decode (item : OutputItem) : Except StepError (List UInt8) :=
  item.textAt "data" >>= fun text =>
    match b64Decode text with
    | .ok bytes => .ok bytes
    | .error message => .error (.run message)

end OutputItem

structure StepOutput where
  channel : List UInt8
  bytes : List UInt8
  deriving DecidableEq, Repr

/-- The largest `size_t`. -/
def sizeMax : Nat :=
  2 ^ 64 - 1

/-- The loop of `inline_payload_bytes`. -/
def inlinePayloadBytesFrom (total : Nat) : List OutputItem → Except StepError Nat
  | [] => .ok total
  | item :: rest =>
    if item.isInline then
      item.decodedSize >>= fun bytes =>
        if bytes > sizeMax - total then
          .error (.run "inline payload byte count overflows size_t")
        else
          inlinePayloadBytesFrom (total + bytes) rest
    else
      inlinePayloadBytesFrom total rest

def inlinePayloadBytes (outputs : List OutputItem) : Except StepError Nat :=
  inlinePayloadBytesFrom 0 outputs

section

-- What the Arena of a Channel holds for an item that names one of its slots.
variable (arena : OutputItem → List UInt8 → Except StepError (List UInt8))

def decodeOutput (item : OutputItem) : Except StepError StepOutput :=
  item.textAt "ch" >>= fun channel =>
    (if item.isInline then item.decode else arena item channel) >>= fun bytes =>
      .ok ⟨channel, bytes⟩

def decodeOutputs (encoded : List OutputItem) : Except StepError (List StepOutput) :=
  encoded.mapM (decodeOutput arena)

end

/-- The bytes that decoding produced from inline items. -/
def inlineBytes (encoded : List OutputItem) (outputs : List StepOutput) : Nat :=
  ((encoded.zip outputs).map fun p => if p.1.isInline then p.2.bytes.length else 0).sum

theorem decodedSize_of_decode {item : OutputItem} {bytes : List UInt8}
    (h : item.decode = .ok bytes) : item.decodedSize = .ok bytes.length := by
  obtain ⟨text, htext, hdecode⟩ := Fallible.bind_eq_ok.mp h
  rw [OutputItem.decodedSize, htext]
  cases hresult : b64Decode text with
  | error message =>
    rw [hresult] at hdecode
    cases hdecode
  | ok decoded =>
    rw [hresult] at hdecode
    cases hdecode
    exact congrArg Except.ok (b64DecodedSize_eq hresult)

/-- The count of inline payloads is the number of decoded bytes, unless that does
not fit the counter. -/
theorem inlinePayloadBytesFrom_eq {arena : OutputItem → List UInt8 → Except StepError (List UInt8)}
    {encoded : List OutputItem} {outputs : List StepOutput}
    (h : decodeOutputs arena encoded = .ok outputs) {total : Nat} (htotal : total ≤ sizeMax) :
    inlinePayloadBytesFrom total encoded = if total + inlineBytes encoded outputs ≤ sizeMax then
        .ok (total + inlineBytes encoded outputs)
      else
        .error (.run "inline payload byte count overflows size_t") := by
  induction encoded generalizing outputs total with
  | nil =>
    rw [inlinePayloadBytesFrom, inlineBytes, zip_nil_left, map_nil, sum_nil,
      Nat.add_zero, if_pos htotal]
  | cons item rest ih =>
    rw [decodeOutputs, mapM_cons] at h
    obtain ⟨output, hitem, h⟩ := Fallible.bind_eq_ok.mp h
    obtain ⟨others, hrest, h⟩ := Fallible.bind_eq_ok.mp h
    cases h
    have hsum : inlineBytes (item :: rest) (output :: others) =
        (if item.isInline then output.bytes.length else 0) + inlineBytes rest others := by
      rfl
    rw [inlinePayloadBytesFrom, hsum]
    by_cases hinline : item.isInline = true
    · obtain ⟨channel, -, hbytes⟩ := Fallible.bind_eq_ok.mp hitem
      rw [if_pos hinline] at hbytes
      obtain ⟨bytes, hdecode, houtput⟩ := Fallible.bind_eq_ok.mp hbytes
      cases houtput
      rw [if_pos hinline, if_pos hinline, decodedSize_of_decode hdecode]
      dsimp only [bind, Except.bind]
      by_cases hfits : bytes.length > sizeMax - total
      · rw [if_pos hfits, if_neg (by omega)]
      · rw [if_neg hfits, ih hrest (by omega), Nat.add_assoc]
    · rw [if_neg hinline, if_neg hinline, ih hrest htotal, Nat.zero_add]

/-- Base64 in the kernel.  The encoder writes the standard text and the decoder
reads it back; for every text that the decoder accepts the size is the number of
bytes it decodes to; so the total of a reply's inline payloads that is held
against the budget of a Step is the number of bytes that decoding then produces
from inline items. -/
theorem kernel_base64 : (∀ payload, b64Decode (b64Encode payload) = .ok payload ∧
      b64Encode payload = standardText payload) ∧
    (∀ text bytes, b64Decode text = .ok bytes → b64DecodedSize text = bytes.length) ∧
    ∀ arena encoded outputs, decodeOutputs arena encoded = .ok outputs →
      inlinePayloadBytes encoded = if inlineBytes encoded outputs ≤ sizeMax then
          .ok (inlineBytes encoded outputs)
        else
          .error (.run "inline payload byte count overflows size_t") := by
  refine ⟨fun payload => ?_, fun text bytes h => b64DecodedSize_eq h, ?_⟩
  · rw [b64Encode_eq_standardText]
    exact ⟨b64Decode_standardText payload, rfl⟩
  · intro arena encoded outputs h
    have htotal := inlinePayloadBytesFrom_eq h (Nat.zero_le sizeMax)
    rwa [Nat.zero_add] at htotal

/-- A reply with one item whose text is not canonical: its last bits are set and
something follows the padding. -/
theorem kernel_base64_noncanonical :
    decodeOutputs (fun _ _ => .ok []) [[("ch", .text [120]), ("data", .text [84, 88, 61, 0])]] =
        .ok [⟨[120], [77]⟩] ∧
      inlinePayloadBytes [[("ch", .text [120]), ("data", .text [84, 88, 61, 0])]] = .ok 1 := by
  have hdecode : decodeOutputs (fun _ _ => .ok [])
      [[("ch", .text [120]), ("data", .text [84, 88, 61, 0])]] = .ok [⟨[120], [77]⟩] := by
    decide +kernel
  exact ⟨hdecode, (kernel_base64.2.2 _ _ _ hdecode).trans rfl⟩

end SilFormal.Protocol
